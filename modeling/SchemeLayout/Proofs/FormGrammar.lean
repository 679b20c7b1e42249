import SchemeLayout.Form.Basic
import SchemeLayout.Proofs.Balanced

/-!
The grammar of one form.

`ReadsForward` and `ReadsBackward` split some classes into the trivia, the prefix
marks and the body that a reading passes over, and into what has to stand next
to them.  They are stated without positions and without runs;
`readForward_eq_some_iff` and `readBackward_eq_some_iff` say that they are what
the two readers compute.  Both relations write the classes in the order of the
text, although the backward reader takes them nearest first.
-/

set_option autoImplicit false

namespace SchemeLayout

/-- Whether two neighbouring classes belong to one token. -/
def ByteClass.joins : ByteClass → ByteClass → Bool
  | atom, atom | stringOpen, stringRest | stringRest, stringRest => true
  | _, _ => false

/-- Whether a token reaches from the class on the left over to that on the right. -/
def joined : Option ByteClass → Option ByteClass → Bool
  | some left, some right => left.joins right
  | _, _ => false

@[simp] theorem joined_none_left (right : Option ByteClass) : joined none right = false := rfl

@[simp] theorem joined_none_right (left : Option ByteClass) : joined left none = false := by
  cases left <;> rfl

theorem joined_of_isLead_left {left : ByteClass} (isLead : left.isLead = true)
    (right : Option ByteClass) : joined (some left) right = false := by
  cases right with
  | none => rfl
  | some right => cases left <;> cases right <;> first | rfl | contradiction

/-- No token goes on from a bracket or up to one. -/
theorem joined_of_bracket {cls : ByteClass} (isBracket : cls = .opening ∨ cls = .closing)
    (other : Option ByteClass) :
    joined (some cls) other = false ∧ joined other (some cls) = false := by
  cases other with
  | none => exact ⟨rfl, rfl⟩
  | some other => rcases isBracket with rfl | rfl <;> cases other <;> exact ⟨rfl, rfl⟩

/-- Nothing but spaces and comments. -/
def AllTrivia (classes : List ByteClass) : Prop := ∀ cls ∈ classes, cls.isTrivia = true

@[simp] theorem allTrivia_nil : AllTrivia [] := by simp [AllTrivia]

theorem AllTrivia.reverse {classes : List ByteClass} (trivia : AllTrivia classes) :
    AllTrivia classes.reverse :=
  fun cls member => trivia cls (List.mem_reverse.mp member)

theorem AllTrivia.isLead {classes : List ByteClass} (trivia : AllTrivia classes) :
    ∀ cls ∈ classes, cls.isLead = true :=
  fun cls member => (ByteClass.isLead_iff cls).mpr (.inr (trivia cls member))

/-- What stands in front of a body: nothing, or a prefix mark with more marks and
trivia behind it. -/
structure LeadMarks (classes : List ByteClass) : Prop where
  isLead : ∀ cls ∈ classes, cls.isLead = true
  first : ∀ cls ∈ classes.head?, cls = .prefixMark

theorem LeadMarks.nil : LeadMarks [] := ⟨by simp, by simp⟩

/-- A complete body. -/
inductive Datum : Shape → List ByteClass → Prop where
  | list {inner : List ByteClass} :
      Balanced inner → Datum .list (.opening :: (inner ++ [.closing]))
  | string {first : ByteClass} {count : Nat} :
      first = .stringOpen ∨ first = .stringRest →
      Datum .string (first :: List.replicate count .stringRest)
  | atom {count : Nat} : Datum .atom (List.replicate (count + 1) .atom)

namespace Datum

variable {shape : Shape} {body : List ByteClass}

theorem exists_cons (datum : Datum shape body) :
    ∃ cls rest, body = cls :: rest ∧ cls.isLead = false ∧ cls ≠ .closing := by
  cases datum with
  | list => exact ⟨_, _, rfl, rfl, by decide⟩
  | string first =>
      refine ⟨_, _, rfl, ?_, ?_⟩ <;> rcases first with rfl | rfl <;> decide
  | atom => exact ⟨_, _, List.replicate_succ, rfl, by decide⟩

theorem exists_concat (datum : Datum shape body) :
    ∃ rest cls, body = rest ++ [cls] ∧ cls.isLead = false ∧ cls ≠ .opening := by
  cases datum with
  | @list inner => exact ⟨.opening :: inner, .closing, rfl, rfl, by decide⟩
  | @string first count firstIs =>
      cases count with
      | zero =>
          refine ⟨[], first, rfl, ?_, ?_⟩ <;> rcases firstIs with rfl | rfl <;> decide
      | succ count =>
          exact ⟨first :: List.replicate count .stringRest, .stringRest,
            by rw [List.replicate_succ', List.cons_append], rfl, by decide⟩
  | @atom count =>
      exact ⟨List.replicate count .atom, .atom, by rw [List.replicate_succ'], rfl, by decide⟩

theorem balanced (datum : Datum shape body) : Balanced body := by
  have replicated (count : Nat) {cls : ByteClass} (notOpening : cls ≠ .opening)
      (notClosing : cls ≠ .closing) : Balanced (List.replicate count cls) := by
    induction count with
    | zero => exact .nil
    | succ count inductionHypothesis =>
        exact .leaf notOpening notClosing inductionHypothesis
  cases datum with
  | list inner => exact .list inner .nil
  | string first =>
      rcases first with rfl | rfl <;>
        exact .leaf (by decide) (by decide) (replicated _ (by decide) (by decide))
  | atom => exact replicated _ (by decide) (by decide)

end Datum

/-- Only trivia stand before the end of the enclosing list. -/
inductive AtListEnd : List ByteClass → Prop where
  | nil : AtListEnd []
  | closing {rest : List ByteClass} : AtListEnd (.closing :: rest)
  | trivia {cls : ByteClass} {rest : List ByteClass} :
      cls.isTrivia = true → AtListEnd rest → AtListEnd (cls :: rest)

theorem AtListEnd.trivia_append {gap rest : List ByteClass} (trivia : AllTrivia gap)
    (atEnd : AtListEnd rest) : AtListEnd (gap ++ rest) := by
  induction gap with
  | nil => exact atEnd
  | cons cls gap inductionHypothesis =>
      exact .trivia (trivia cls (by simp))
        (inductionHypothesis fun other member => trivia other (by simp [member]))

theorem AtListEnd.exists_append {classes : List ByteClass} (atEnd : AtListEnd classes) :
    ∃ gap rest, classes = gap ++ rest ∧ AllTrivia gap ∧
      (rest.head? = none ∨ rest.head? = some .closing) := by
  induction atEnd with
  | nil => exact ⟨[], [], rfl, allTrivia_nil, .inl rfl⟩
  | @closing rest => exact ⟨[], .closing :: rest, rfl, allTrivia_nil, .inr rfl⟩
  | @trivia cls rest isTrivia _ inductionHypothesis =>
      obtain ⟨gap, after, rfl, trivia, ended⟩ := inductionHypothesis
      refine ⟨cls :: gap, after, rfl, ?_, ended⟩
      intro other member
      rcases List.mem_cons.mp member with rfl | inGap
      · exact isTrivia
      · exact trivia other inGap

/-- In balanced classes the enclosing list ends with the classes. -/
theorem AtListEnd.allTrivia {classes : List ByteClass} (atEnd : AtListEnd classes)
    (balanced : Balanced classes) : AllTrivia classes := by
  induction atEnd with
  | nil => exact allTrivia_nil
  | closing =>
      cases balanced with
      | leaf _ notClosing _ => exact absurd rfl notClosing
  | trivia isTrivia _ inductionHypothesis =>
      cases balanced with
      | leaf _ _ rest =>
          intro cls member
          rcases List.mem_cons.mp member with rfl | later
          · exact isTrivia
          · exact inductionHypothesis rest cls later
      | list => contradiction

/-- No prefix mark at the end of these classes waits for its body. -/
def Unmarked (classes : List ByteClass) : Prop := markLength classes.reverse = 0

/-- A form, read from its front. -/
inductive ReadsForward : List ByteClass → Reading → Prop where
  | datum {gap lead body rest : List ByteClass} {shape : Shape} :
      AllTrivia gap → LeadMarks lead → Datum shape body →
      joined body.getLast? rest.head? = false →
      ReadsForward (gap ++ (lead ++ (body ++ rest))) ⟨gap.length, lead.length, body.length, shape⟩
  /-- A list that is never closed takes all that is left. -/
  | unclosed {gap lead inner : List ByteClass} :
      AllTrivia gap → LeadMarks lead → closeWithin 0 inner = none →
      ReadsForward (gap ++ (lead ++ .opening :: inner))
        ⟨gap.length, lead.length, inner.length + 1, .list⟩
  | dangling {gap marks rest : List ByteClass} :
      AllTrivia gap → LeadMarks marks → marks.getLast? = some .prefixMark → AtListEnd rest →
      ReadsForward (gap ++ (marks ++ rest)) ⟨gap.length, 0, marks.length, .danglingPrefix⟩

/-- A form, read from its back. -/
inductive ReadsBackward : List ByteClass → Reading → Prop where
  | datum {front lead body gap : List ByteClass} {shape : Shape} :
      AllTrivia gap → LeadMarks lead → Datum shape body → Unmarked front →
      joined (front ++ lead).getLast? body.head? = false →
      ReadsBackward (front ++ (lead ++ (body ++ gap)))
        ⟨gap.length, lead.length, body.length, shape⟩
  /-- A list that is never opened takes all that is left. -/
  | unopened {inner gap : List ByteClass} :
      AllTrivia gap → openWithin 0 inner.reverse = none →
      ReadsBackward (inner ++ .closing :: gap) ⟨gap.length, 0, inner.length + 1, .list⟩
  | dangling {front marks gap : List ByteClass} :
      AllTrivia gap → LeadMarks marks → marks.getLast? = some .prefixMark → Unmarked front →
      ReadsBackward (front ++ (marks ++ gap)) ⟨gap.length, 0, marks.length, .danglingPrefix⟩

/-! ## Runs and marks -/

section Runs

variable {wanted : ByteClass → Bool} {run rest : List ByteClass}

theorem runLength_append (inRun : ∀ cls ∈ run, wanted cls = true) :
    runLength wanted (run ++ rest) = run.length + runLength wanted rest := by
  induction run with
  | nil => simp
  | cons cls run inductionHypothesis =>
      rw [List.cons_append, runLength_cons_pos (inRun cls (by simp)),
        inductionHypothesis fun other member => inRun other (by simp [member]), List.length_cons]
      omega

theorem runLength_eq_zero (stop : ∀ cls ∈ rest.head?, wanted cls = false) :
    runLength wanted rest = 0 := by
  cases rest with
  | nil => rfl
  | cons cls rest => exact runLength_cons_neg (stop cls (by simp)) rest

theorem exists_run (wanted : ByteClass → Bool) (classes : List ByteClass) :
    ∃ run rest, classes = run ++ rest ∧ (∀ cls ∈ run, wanted cls = true) ∧
      ∀ cls ∈ rest.head?, wanted cls = false := by
  induction classes with
  | nil => exact ⟨[], [], rfl, by simp, by simp⟩
  | cons first later inductionHypothesis =>
      cases isWanted : wanted first with
      | false => exact ⟨[], first :: later, rfl, by simp, by simpa using isWanted⟩
      | true =>
          obtain ⟨run, rest, rfl, inRun, stop⟩ := inductionHypothesis
          refine ⟨first :: run, rest, rfl, ?_, stop⟩
          intro cls member
          rcases List.mem_cons.mp member with rfl | inRest
          · exact isWanted
          · exact inRun cls inRest

theorem markLength_trivia_cons {cls : ByteClass} (isTrivia : cls.isTrivia = true)
    (classes : List ByteClass) :
    markLength (cls :: classes) =
      if markLength classes = 0 then 0 else markLength classes + 1 := by
  cases cls with
  | space | comment =>
      simp only [markLength, ByteClass.isTrivia, if_true]
      cases markLength classes <;> simp
  | opening | closing | prefixMark | stringOpen | stringRest | atom => contradiction

theorem markLength_cons_of_trivia {cls : ByteClass} (isTrivia : cls.isTrivia = true)
    (classes : List ByteClass) :
    markLength (cls :: classes) = 0 ↔ markLength classes = 0 := by
  rw [markLength_trivia_cons isTrivia]
  split <;> simp [*]

theorem markLength_trivia_append {gap : List ByteClass} (trivia : AllTrivia gap)
    (classes : List ByteClass) :
    markLength (gap ++ classes) = 0 ↔ markLength classes = 0 := by
  induction gap with
  | nil => rfl
  | cons cls gap inductionHypothesis =>
      rw [List.cons_append, markLength_cons_of_trivia (trivia cls (by simp)),
        inductionHypothesis fun other member => trivia other (by simp [member])]

/-- Lead classes without a mark are trivia. -/
theorem allTrivia_of_markLength {classes : List ByteClass}
    (isLead : ∀ cls ∈ classes, cls.isLead = true) (unmarked : markLength classes = 0) :
    AllTrivia classes := by
  induction classes with
  | nil => exact allTrivia_nil
  | cons first rest inductionHypothesis =>
      rcases (ByteClass.isLead_iff first).mp (isLead first (by simp)) with rfl | isTrivia
      · exact absurd unmarked (Nat.ne_of_gt (markLength_cons_pos rest))
      · intro cls member
        rcases List.mem_cons.mp member with rfl | inRest
        · exact isTrivia
        · refine
            inductionHypothesis (fun other inside => isLead other (by simp [inside])) ?_ cls inRest
          exact (markLength_cons_of_trivia isTrivia rest).mp unmarked

theorem markLength_cons_of_not_isLead {cls : ByteClass} (notLead : cls.isLead = false)
    (classes : List ByteClass) : markLength (cls :: classes) = 0 := by
  cases cls <;> first | rfl | contradiction

theorem markLength_of_append {front rest : List ByteClass}
    (unmarked : markLength (front ++ rest) = 0) : markLength front = 0 := by
  induction front with
  | nil => rfl
  | cons cls front inductionHypothesis =>
      cases isLead : cls.isLead with
      | false => exact markLength_cons_of_not_isLead isLead front
      | true =>
          rcases (ByteClass.isLead_iff cls).mp isLead with rfl | isTrivia
          · exact absurd unmarked (Nat.ne_of_gt (markLength_cons_pos _))
          · rw [List.cons_append, markLength_cons_of_trivia isTrivia] at unmarked
            exact (markLength_cons_of_trivia isTrivia front).mpr (inductionHypothesis unmarked)

theorem markLength_append {marks classes : List ByteClass}
    (isLead : ∀ cls ∈ marks, cls.isLead = true)
    (last : ∀ cls ∈ marks.getLast?, cls = .prefixMark) (stop : markLength classes = 0) :
    markLength (marks ++ classes) = marks.length := by
  induction marks with
  | nil => simpa using stop
  | cons cls marks inductionHypothesis =>
      have later : markLength (marks ++ classes) = marks.length := by
        refine inductionHypothesis (fun other member => isLead other (by simp [member])) ?_
        intro other member
        refine last other ?_
        rw [List.getLast?_cons, Option.mem_def.mp member]
        rfl
      rcases (ByteClass.isLead_iff cls).mp (isLead cls (by simp)) with rfl | isTrivia
      · rw [List.cons_append, markLength, later, List.length_cons]
      · cases marks with
        | nil =>
            have mark := last cls (by simp)
            subst mark
            contradiction
        | cons next marks =>
            rw [List.length_cons] at later
            cases cls <;> first | contradiction | skip
            all_goals
              simp only [List.cons_append, markLength, ByteClass.isTrivia, if_true] at later ⊢
              rw [later]
              simp only [List.length_cons]

theorem exists_marks (classes : List ByteClass) :
    ∃ marks rest, classes = marks ++ rest ∧ (∀ cls ∈ marks, cls.isLead = true) ∧
      (∀ cls ∈ marks.getLast?, cls = .prefixMark) ∧ markLength rest = 0 := by
  induction classes with
  | nil => exact ⟨[], [], rfl, by simp, by simp, rfl⟩
  | cons cls later inductionHypothesis =>
      obtain ⟨marks, rest, rfl, isLead, last, stop⟩ := inductionHypothesis
      have extended (clsLead : cls.isLead = true) :
          ∀ other ∈ cls :: marks, other.isLead = true := by
        intro other member
        rcases List.mem_cons.mp member with rfl | inMarks
        · exact clsLead
        · exact isLead other inMarks
      cases clsLead : cls.isLead with
      | false => exact ⟨[], _, rfl, by simp, by simp, markLength_cons_of_not_isLead clsLead _⟩
      | true =>
          cases marks with
          | cons next marks =>
              refine ⟨cls :: next :: marks, rest, rfl, extended clsLead, ?_, stop⟩
              rw [List.getLast?_cons_cons]
              exact last
          | nil =>
              rcases (ByteClass.isLead_iff cls).mp clsLead with rfl | isTrivia
              · exact ⟨[.prefixMark], rest, rfl, extended clsLead, by simp, stop⟩
              · exact ⟨[], cls :: rest, rfl, by simp, by simp,
                  (markLength_cons_of_trivia isTrivia rest).mpr stop⟩

theorem exists_run_back (wanted : ByteClass → Bool) (classes : List ByteClass) :
    ∃ front run, classes = front ++ run ∧ (∀ cls ∈ run, wanted cls = true) ∧
      ∀ cls ∈ front.getLast?, wanted cls = false := by
  obtain ⟨run, rest, split, inRun, stop⟩ := exists_run wanted classes.reverse
  refine ⟨rest.reverse, run.reverse, ?_, ?_, ?_⟩
  · rw [← List.reverse_append, ← split, List.reverse_reverse]
  · simpa using inRun
  · simpa using stop

theorem LeadMarks.markLength_reverse {front lead : List ByteClass} (marks : LeadMarks lead)
    (unmarked : Unmarked front) : markLength (front ++ lead).reverse = lead.length := by
  rw [List.reverse_append, markLength_append ?_ ?_ unmarked, List.length_reverse]
  · simpa using marks.isLead
  · simpa using marks.first

theorem exists_lead_back (classes : List ByteClass) :
    ∃ front lead, classes = front ++ lead ∧ LeadMarks lead ∧ Unmarked front := by
  obtain ⟨marks, rest, split, isLead, last, stop⟩ := exists_marks classes.reverse
  refine ⟨rest.reverse, marks.reverse, ?_, ⟨?_, ?_⟩, ?_⟩
  · rw [← List.reverse_append, ← split, List.reverse_reverse]
  · simpa using isLead
  · simpa using last
  · rw [Unmarked, List.reverse_reverse]
    exact stop

end Runs

end SchemeLayout
