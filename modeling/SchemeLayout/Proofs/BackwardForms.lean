import SchemeLayout.Proofs.IndentationAbove
import SchemeLayout.Proofs.NavigatorSpans

/-!
Reading forward what has been read backward.

The reader backward finds prefix marks and a body, marks that no body follows, or
a closing bracket that closes nothing.  This holds for every class table, also for
one that no text has.  Marks and a body are read forward as the same form, as long
as the token at their end does not go on behind them: the reader backward stops at
its position, while the reader forward takes the whole token.
-/

set_option autoImplicit false

namespace SchemeLayout

/-- The form is a list whose closing bracket closes nothing. -/
def ClosesNothing (classes : List ByteClass) (form : Form) : Prop :=
  form.shape = .list ∧ openBackward classes (form.stop - 1) 0 = none

/-- The token that the form ends with goes on behind it. -/
def GoesOnBehind (classes : List ByteClass) (form : Form) : Prop :=
  form.shape = .string ∧ classes[form.stop]? = some .stringRest ∨
    form.shape = .atom ∧ classes[form.stop]? = some .atom

variable {classes : List ByteClass} {pos : Nat} {form : Form}

/-- What the reader backward can find, and where. -/
inductive FoundBackward (classes : List ByteClass) : Form → Prop where
  | datum {front lead body rest : List ByteClass} {shape : Shape} :
      classes = front ++ (lead ++ (body ++ rest)) → LeadMarks lead → Datum shape body →
      FoundBackward classes ⟨front.length, front.length + lead.length,
        front.length + lead.length + body.length, shape⟩
  | dangling {front marks rest : List ByteClass} :
      classes = front ++ (.prefixMark :: marks ++ rest) →
      FoundBackward classes ⟨front.length, front.length,
        front.length + (marks.length + 1), .danglingPrefix⟩
  | unopened {inner rest : List ByteClass} :
      classes = inner ++ .closing :: rest → openWithin 0 inner.reverse = none →
      FoundBackward classes ⟨0, 0, inner.length + 1, .list⟩

/-- Where a form lies, from what its parts and the trivia behind it leave over in front. -/
theorem Reading.formBefore_eq {reading : Reading} {start stop : Nat}
    (length : stop = start + reading.size) :
    reading.formBefore stop =
      ⟨start, start + reading.lead, start + reading.lead + reading.body, reading.shape⟩ := by
  simp only [formBefore, Form.mk.injEq, and_true]
  simp only [size] at length
  omega

theorem foundBackward (found : formBackward classes pos = some form) :
    FoundBackward classes form := by
  obtain ⟨reading, reads, rfl⟩ := exists_readsBackward found
  generalize isPassed : classes.take pos = passed at reads
  have whole {front inner : List ByteClass} (split : passed = front ++ inner) :
      classes = front ++ (inner ++ classes.drop pos) := by
    rw [← List.append_assoc, ← split, ← isPassed, List.take_append_drop]
  cases reads with
  | @datum front lead body gap shape trivia marks datum unmarked apart =>
      have length : (front ++ (lead ++ (body ++ gap))).length =
          front.length + Reading.size ⟨gap.length, lead.length, body.length, shape⟩ := by
        simp only [Reading.size, List.length_append]
        omega
      have split : classes = front ++ (lead ++ (body ++ (gap ++ classes.drop pos))) := by
        simpa only [List.append_assoc] using whole rfl
      rw [Reading.formBefore_eq length]
      exact .datum split marks datum
  | @unopened inner gap trivia unopened =>
      have length : (inner ++ .closing :: gap).length =
          0 + Reading.size ⟨gap.length, 0, inner.length + 1, .list⟩ := by
        simp only [Reading.size, List.length_append, List.length_cons]
        omega
      rw [Reading.formBefore_eq length]
      simpa only [Nat.zero_add] using FoundBackward.unopened (whole rfl) unopened
  | @dangling front marks gap trivia isMarks last unmarked =>
      have length : (front ++ (marks ++ gap)).length =
          front.length + Reading.size ⟨gap.length, 0, marks.length, .danglingPrefix⟩ := by
        simp only [Reading.size, List.length_append]
        omega
      have split : classes = front ++ (marks ++ (gap ++ classes.drop pos)) := by
        simpa only [List.append_assoc] using whole rfl
      rw [Reading.formBefore_eq length]
      cases marks with
      | nil => contradiction
      | cons mark marks =>
          obtain rfl := isMarks.first mark rfl
          exact .dangling split

namespace FoundBackward

theorem closesNothing_of_unopened {inner rest : List ByteClass}
    (split : classes = inner ++ .closing :: rest) (unopened : openWithin 0 inner.reverse = none) :
    ClosesNothing classes ⟨0, 0, inner.length + 1, .list⟩ := by
  refine ⟨rfl, ?_⟩
  rw [openBackward, before_eq, split, Nat.add_sub_cancel, List.take_left, unopened]
  rfl

/-- A form starts with a class of its own, unless its closing bracket closes nothing. -/
theorem exists_first (found : FoundBackward classes form) (opened : ¬ ClosesNothing classes form) :
    ∃ cls, classes[form.start]? = some cls ∧ cls.isTrivia = false := by
  cases found with
  | @datum front lead body rest shape split marks datum =>
      cases lead with
      | nil =>
          obtain ⟨cls, inside, rfl, notLead, _⟩ := datum.exists_cons
          refine ⟨cls, by simp [split], ?_⟩
          cases cls <;> first | rfl | contradiction
      | cons mark lead =>
          obtain rfl := marks.first mark rfl
          exact ⟨.prefixMark, by simp [split], rfl⟩
  | dangling split => exact ⟨.prefixMark, by simp [split], rfl⟩
  | unopened split unopened => exact absurd (closesNothing_of_unopened split unopened) opened

/-- Marks and a body are read forward, if the token at their end stops with them. -/
theorem formForward_eq (found : FoundBackward classes form)
    (applied : form.shape ≠ .danglingPrefix) (opened : ¬ ClosesNothing classes form)
    (ended : ¬ GoesOnBehind classes form) : formForward classes form.start = some form := by
  cases found with
  | @datum front lead body rest shape split marks datum =>
      have next : classes[front.length + lead.length + body.length]? = rest.head? := by
        rw [Nat.add_assoc, ← List.length_append, ← List.head?_drop, split, ← List.drop_drop,
          List.drop_left, ← List.append_assoc, List.drop_left]
      have apart : joined body.getLast? rest.head? = false := by
        rw [← Bool.not_eq_true, datum.joined_getLast?, ← next]
        exact ended
      have behind : classes.drop front.length = [] ++ (lead ++ (body ++ rest)) := by
        rw [split, List.drop_left, List.nil_append]
      have reads : ReadsForward (classes.drop front.length) ⟨0, lead.length, body.length, shape⟩ := by
        rw [behind]
        exact .datum allTrivia_nil marks datum apart
      have within : front.length ≤ classes.length := by
        rw [split, List.length_append]
        omega
      exact formForward_of_readsForward within reads
  | dangling => exact absurd rfl applied
  | unopened split unopened => exact absurd (closesNothing_of_unopened split unopened) opened

end FoundBackward

/-- A form that is read backward is not empty, ends at or before the position, and starts
with a class of its own unless its closing bracket closes nothing.  Read forward from its
start it is the same form, unless it has no body, its closing bracket closes nothing, or
its last token goes on behind it. -/
theorem formForward_of_formBackward (found : formBackward classes pos = some form) :
    (form.start ≤ form.body ∧ form.body < form.stop ∧ form.stop ≤ min pos classes.length) ∧
    (¬ ClosesNothing classes form →
      ∃ cls, classes[form.start]? = some cls ∧ cls.isTrivia = false) ∧
    (form.shape ≠ .danglingPrefix → ¬ ClosesNothing classes form → ¬ GoesOnBehind classes form →
      formForward classes form.start = some form) := by
  refine ⟨formBackward_bounds found, ?_, ?_⟩
  · exact (foundBackward found).exists_first
  · exact (foundBackward found).formForward_eq

/-- A string without its opening quote, which no text has, behind a mark and a comment. -/
theorem formForward_of_formBackward_bare_string :
    let classes : List ByteClass := [.opening, .prefixMark, .comment, .stringRest, .stringRest,
      .space]
    formBackward classes 6 = some ⟨1, 3, 5, .string⟩ ∧
      formForward classes 1 = some ⟨1, 3, 5, .string⟩ := by
  intro classes
  have found : formBackward classes 6 = some ⟨1, 3, 5, .string⟩ := by decide
  have opened : ¬ ClosesNothing classes ⟨1, 3, 5, .string⟩ := by
    rintro ⟨isList, _⟩
    contradiction
  have ended : ¬ GoesOnBehind classes ⟨1, 3, 5, .string⟩ := by simp [GoesOnBehind, classes]
  exact ⟨found, (formForward_of_formBackward found).2.2 (by decide) opened ended⟩

end SchemeLayout
