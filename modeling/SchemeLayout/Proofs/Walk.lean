import SchemeLayout.Form.Navigator
import SchemeLayout.Proofs.FormReaders

/-!
Walking over all forms of a text, and walking back.

A walk reads form after form from the start of the text and enters every list
that it meets.  Wherever it reads on, no token and no prefix chain reaches over
from the left: the position is fresh.  From a fresh position both readers see
the same form, so every move forward of the walk is undone by a move backward.
-/

set_option autoImplicit false

namespace SchemeLayout

/-- Between these classes no token is cut and no prefix mark on the left belongs
to a form on the right. -/
def Fresh (front rest : List ByteClass) : Prop :=
  AtListEnd rest ∨ Unmarked front ∧ joined front.getLast? rest.head? = false

theorem unmarked_concat {cls : ByteClass} (notLead : cls.isLead = false)
    (front : List ByteClass) : Unmarked (front ++ [cls]) := by
  rw [Unmarked, List.reverse_concat]
  exact markLength_cons_of_not_isLead notLead front.reverse

theorem fresh_nil (rest : List ByteClass) : Fresh [] rest := .inr ⟨rfl, rfl⟩

theorem fresh_opening (front rest : List ByteClass) : Fresh (front ++ [.opening]) rest := by
  refine .inr ⟨unmarked_concat rfl front, ?_⟩
  rw [List.getLast?_concat]
  cases rest.head? with
  | none => rfl
  | some cls => cases cls <;> rfl

/-! ## From one reader to the other -/

section Parts

variable (gap lead body after : List ByteClass)

theorem take_parts : (gap ++ (lead ++ (body ++ after))).take
    (gap.length + lead.length + body.length) = gap ++ (lead ++ body) := by
  rw [← List.append_assoc, ← List.append_assoc, List.take_left' (by simp only [List.length_append]),
    List.append_assoc]

theorem drop_parts : (gap ++ (lead ++ (body ++ after))).drop
    (gap.length + lead.length + body.length) = after := by
  rw [← List.append_assoc, ← List.append_assoc, List.drop_left' (by simp only [List.length_append])]

end Parts

namespace ReadsForward

variable {front rest : List ByteClass} {reading : Reading}

theorem fresh (reads : ReadsForward rest reading) :
    Fresh (front ++ rest.take reading.size) (rest.drop reading.size) := by
  cases reads with
  | @datum gap lead body after shape trivia marks datum apart =>
      simp only [Reading.size, take_parts, drop_parts]
      obtain ⟨inside, cls, rfl, notLead, _⟩ := datum.exists_concat
      simp only [← List.append_assoc] at apart ⊢
      refine .inr ⟨unmarked_concat notLead _, ?_⟩
      rwa [List.getLast?_concat] at apart ⊢
  | @unclosed gap lead inner trivia marks unclosed =>
      left
      rw [List.drop_eq_nil_of_le (by simp [Reading.size]; omega)]
      exact .nil
  | @dangling gap marks after trivia isMarks last atEnd =>
      left
      have left := drop_parts gap [] marks after
      exact left.symm ▸ atEnd

theorem opening_of_list (reads : ReadsForward rest reading) (isList : reading.shape = .list) :
    ∃ before inner, rest = before ++ .opening :: inner ∧
      before.length = reading.gap + reading.lead := by
  cases reads with
  | @datum gap lead body after shape trivia marks datum apart =>
      cases datum with
      | @list inner balanced => exact ⟨gap ++ lead, inner ++ [.closing] ++ after, by simp, by simp⟩
      | string => contradiction
      | atom => contradiction
  | @unclosed gap lead inner => exact ⟨gap ++ lead, inner, by simp, by simp⟩
  | dangling => contradiction

theorem at_start (reads : ReadsForward rest reading) :
    ReadsForward (rest.drop reading.gap) { reading with gap := 0 } := by
  cases reads with
  | datum _ marks datum apart =>
      rw [List.drop_left]
      exact (ReadsForward.datum allTrivia_nil marks datum apart :)
  | unclosed _ marks unclosed =>
      rw [List.drop_left]
      exact (ReadsForward.unclosed allTrivia_nil marks unclosed :)
  | dangling _ isMarks last atEnd =>
      rw [List.drop_left]
      exact (ReadsForward.dangling allTrivia_nil isMarks last atEnd :)

/-- From a fresh position a form is read backward as it is read forward. -/
theorem readsBackward (reads : ReadsForward rest reading) (fresh : Fresh front rest)
    (closed : reading.shape = .list →
      closeWithin 0 (rest.drop (reading.gap + reading.lead + 1)) ≠ none) :
    ReadsBackward (front ++ rest.take reading.size) { reading with gap := 0 } := by
  obtain ⟨unmarked, apart⟩ : Unmarked front ∧ joined front.getLast? rest.head? = false := by
    refine fresh.resolve_left fun atEnd => ?_
    rw [← readForward_eq_none_iff, readForward_eq_some_iff.mpr reads] at atEnd
    contradiction
  have unmarkedGap {gap : List ByteClass} (trivia : AllTrivia gap) : Unmarked (front ++ gap) := by
    rw [Unmarked, List.reverse_append]
    exact (markLength_trivia_append trivia.reverse _).mpr unmarked
  cases reads with
  | @datum gap lead body after shape trivia marks datum datumApart =>
      have passed :
          front ++ (gap ++ (lead ++ body)) = (front ++ gap) ++ (lead ++ (body ++ [])) := by
        simp
      simp only [Reading.size, take_parts, passed]
      refine .datum allTrivia_nil marks datum (unmarkedGap trivia) ?_
      -- The class in front of the body is a lead class, or the one the form was read from.
      rcases List.eq_nil_or_concat (gap ++ lead) with nothing | ⟨before, cls, split⟩
      · obtain ⟨rfl, rfl⟩ := List.append_eq_nil_iff.mp nothing
        obtain ⟨cls, inside, rfl, _, _⟩ := datum.exists_cons
        simpa using apart
      · have isLead : cls.isLead = true := by
          have member : cls ∈ gap ++ lead := by simp [split]
          rcases List.mem_append.mp member with inGap | inLead
          · exact trivia.isLead cls inGap
          · exact marks.isLead cls inLead
        rw [List.append_assoc, split, List.concat_eq_append, ← List.append_assoc,
          List.getLast?_concat]
        exact joined_of_isLead_left isLead _
  | @unclosed gap lead inner trivia marks unclosed =>
      have inside : (gap ++ (lead ++ .opening :: inner)).drop (gap.length + lead.length + 1) =
          inner := by
        rw [← List.append_assoc, ← List.drop_drop, List.drop_left' (by simp)]
        rfl
      refine absurd ?_ (closed rfl)
      simp only [inside, unclosed]
  | @dangling gap marks after trivia isMarks last atEnd =>
      have passed : front ++ (gap ++ (marks ++ after)).take (gap.length + 0 + marks.length) =
          (front ++ gap) ++ (marks ++ []) := by
        rw [List.append_nil, List.append_assoc]
        exact congrArg (front ++ ·) (take_parts gap [] marks after)
      simp only [Reading.size, passed]
      exact .dangling allTrivia_nil isMarks last (unmarkedGap trivia)

end ReadsForward

/-! ## Positions -/

section Positions

variable {classes : List ByteClass} {pos : Nat} {form : Form}

/-- No token and no prefix chain reaches over this position. -/
def FreshAt (classes : List ByteClass) (pos : Nat) : Prop :=
  Fresh (classes.take pos) (classes.drop pos)

theorem exists_readsForward (found : formForward classes pos = some form) :
    ∃ reading, ReadsForward (classes.drop pos) reading ∧ form = reading.formAfter pos := by
  obtain ⟨reading, read, rfl⟩ := Option.map_eq_some_iff.mp found
  have bounds := readForward_bounds read
  simp only [Reading.size, List.length_drop] at bounds
  rw [Nat.min_eq_left (by omega)]
  exact ⟨reading, readForward_eq_some_iff.mp read, rfl⟩

theorem freshAt_stop (found : formForward classes pos = some form) :
    FreshAt classes form.stop := by
  obtain ⟨reading, reads, rfl⟩ := exists_readsForward found
  have after : Fresh (classes.take pos ++ _) _ := reads.fresh
  rwa [List.drop_drop, ← List.take_add, ← Reading.stop_formAfter] at after

theorem freshAt_inside (found : formForward classes pos = some form) (isList : form.shape = .list) :
    FreshAt classes (form.body + 1) := by
  obtain ⟨reading, reads, rfl⟩ := exists_readsForward found
  obtain ⟨before, inner, split, length⟩ := reads.opening_of_list isList
  have body : (reading.formAfter pos).body + 1 = pos + (before.length + 1) := by
    simp only [Reading.formAfter]
    omega
  have passed : (before ++ .opening :: inner).take (before.length + 1) = before ++ [.opening] := by
    simp [List.take_append, List.take_of_length_le]
  rw [FreshAt, body, List.take_add, split, passed, ← List.append_assoc]
  exact fresh_opening _ _

theorem formForward_start (found : formForward classes pos = some form) :
    formForward classes form.start = some form := by
  obtain ⟨reading, reads, rfl⟩ := exists_readsForward found
  have bounds := formForward_bounds found
  have again := readForward_eq_some_iff.mpr reads.at_start
  rw [List.drop_drop] at again
  rw [formForward, show (reading.formAfter pos).start = pos + reading.gap from rfl, again,
    Nat.min_eq_left (by simp only [Reading.formAfter] at bounds; omega)]
  rfl

/-- From a fresh position the form read forward is the one read backward from its
end. -/
theorem formBackward_stop (fresh : FreshAt classes pos)
    (found : formForward classes pos = some form)
    (closed : form.shape = .list → closeForward classes (form.body + 1) 0 ≠ none) :
    formBackward classes form.stop = some form := by
  obtain ⟨reading, reads, rfl⟩ := exists_readsForward found
  have bounds := formForward_bounds found
  have inside : classes.drop ((reading.formAfter pos).body + 1) =
      (classes.drop pos).drop (reading.gap + reading.lead + 1) := by
    rw [List.drop_drop]
    congr 1
    simp only [Reading.formAfter]
    omega
  have back := reads.readsBackward fresh fun isList => by
    have matched := closed isList
    rwa [closeForward, inside, ne_eq, Option.map_eq_none_iff] at matched
  rw [← List.take_add, ← Reading.stop_formAfter] at back
  rw [formBackward, before_eq, readBackward_reverse_eq_some_iff.mpr back,
    Nat.min_eq_left bounds.2.2.2]
  simp only [Option.map_some, Reading.formBefore, Reading.formAfter, Option.some.injEq,
    Form.mk.injEq, and_true]
  omega

end Positions

/-! ## Walks -/

namespace Navigator

/-- The offsets at which a walk over all forms reads on: the start of the text, the
end of each form, and the inside of each list. -/
inductive WalkOffset (source : Source) : Nat → Prop where
  | start : WalkOffset source 0
  | next {offset : Nat} {span : FormSpan} :
      WalkOffset source offset → locate source offset .forward = .ok (some span) →
      WalkOffset source span.stop
  | inside {offset : Nat} {list interior : FormSpan} :
      WalkOffset source offset → locate source offset .forward = .ok (some list) →
      locate source list.start .down = .ok (some interior) →
      WalkOffset source interior.start

/-- The forms that a walk over all forms meets. -/
def WalkForm (source : Source) (span : FormSpan) : Prop :=
  ∃ offset, WalkOffset source offset ∧ locate source offset .forward = .ok (some span)

/-- A list that is never closed. -/
def MissesClose (source : Source) (span : FormSpan) : Prop :=
  ∃ interior, locate source span.start .down = .ok (some interior) ∧
    closeForward source.classes interior.start 0 = none

theorem locate_forward_eq {source : Source} {offset : Nat} {span : FormSpan} :
    locate source offset .forward = .ok (some span) ↔
      ∃ form, formForward source.classes offset = some form ∧ source.spanOf form = span := by
  simp [locate, Source.formAfter?]

theorem locate_down_eq {source : Source} {offset : Nat} {interior : FormSpan} :
    locate source offset .down = .ok (some interior) ↔
      ∃ form, formForward source.classes offset = some form ∧ form.shape = .list ∧
        interior = ⟨form.body + 1, ((closeForward source.classes (form.body + 1) 0).map
          (· - 1)).getD source.length, .list⟩ := by
  simp only [locate, Source.interior?]
  cases formForward source.classes offset with
  | none => simp
  | some form =>
      by_cases isList : form.shape = .list
      · simp [isList, eq_comm]
      · simp [isList]

/-- A walk reads on at fresh positions only. -/
theorem WalkOffset.freshAt {source : Source} {offset : Nat} (walked : WalkOffset source offset) :
    FreshAt source.classes offset := by
  induction walked with
  | start => exact fresh_nil _
  | next _ located _ =>
      obtain ⟨form, found, rfl⟩ := locate_forward_eq.mp located
      exact freshAt_stop found
  | inside _ _ entered _ =>
      obtain ⟨form, found, isList, rfl⟩ := locate_down_eq.mp entered
      exact freshAt_inside found isList

/-- Every move forward of a walk is undone by the move backward from its end,
except over a list that is never closed. -/
theorem move_backward_of_walkForm {source : Source} {span : FormSpan}
    (walked : WalkForm source span) (closed : ¬ MissesClose source span)
    (navigator : Navigator) (bound : navigator.source = source) :
    navigator.move .backward span.stop = (.ok true, { navigator with span := span }) := by
  obtain ⟨offset, reached, located⟩ := walked
  obtain ⟨form, found, rfl⟩ := locate_forward_eq.mp located
  have matched (isList : form.shape = .list) :
      closeForward source.classes (form.body + 1) 0 ≠ none := fun unclosed =>
    closed ⟨_, locate_down_eq.mpr ⟨form, formForward_start found, isList, rfl⟩, unclosed⟩
  have back := formBackward_stop reached.freshAt found matched
  subst bound
  simp only [move, settle, locate, Source.formBefore?, Source.stop_spanOf, back, Option.map_some]

/-- A string behind a quote and a comment, in a list that is never closed. -/
theorem move_backward_over_quoted_string :
    (Navigator.mk (.ofString "(' ;c\n \"s\"x") ⟨0, 0, .atom⟩).move .backward 10 =
      (.ok true, ⟨.ofString "(' ;c\n \"s\"x", ⟨1, 10, .string⟩⟩) := by
  have outer : locate (.ofString "(' ;c\n \"s\"x") 0 .forward = .ok (some ⟨0, 11, .list⟩) :=
    locate_forward_eq.mpr ⟨⟨0, 0, 11, .list⟩, by decide +kernel, rfl⟩
  have entered : locate (.ofString "(' ;c\n \"s\"x") 0 .down = .ok (some ⟨1, 11, .list⟩) :=
    locate_down_eq.mpr ⟨⟨0, 0, 11, .list⟩, by decide +kernel, rfl, by decide +kernel⟩
  have found : formForward (Source.ofString "(' ;c\n \"s\"x").classes 1 =
      some ⟨1, 7, 10, .string⟩ := by
    decide +kernel
  have quoted : locate (.ofString "(' ;c\n \"s\"x") 1 .forward = .ok (some ⟨1, 10, .string⟩) :=
    locate_forward_eq.mpr ⟨_, found, rfl⟩
  have noList : ¬ MissesClose (.ofString "(' ;c\n \"s\"x") ⟨1, 10, .string⟩ := by
    rintro ⟨interior, inside, _⟩
    obtain ⟨form, again, isList, _⟩ := locate_down_eq.mp inside
    rw [found, Option.some.injEq] at again
    subst again
    contradiction
  exact move_backward_of_walkForm ⟨1, .inside .start outer entered, quoted⟩ noList _ rfl

end Navigator

end SchemeLayout
