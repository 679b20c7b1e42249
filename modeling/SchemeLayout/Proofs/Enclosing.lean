import SchemeLayout.Form.Navigator
import SchemeLayout.Proofs.Balanced

/-!
The innermost list around an offset.

A list is around an offset when it opens before it and its closing bracket, found
by matching forward, comes after it or is missing.  Matching backward from the
offset finds the innermost of these lists, also where brackets do not match up.
-/

set_option autoImplicit false

namespace SchemeLayout

/-- The list that opens at `opening` is around the offset. -/
def Encloses (classes : List ByteClass) (opening offset : Nat) : Prop :=
  opening < offset ∧ classes[opening]? = some .opening ∧
    ∀ stop, closeForward classes (opening + 1) 0 = some stop → offset < stop

/-- The list that opens at `opening` is the innermost one around the offset. -/
def IsInnermost (classes : List ByteClass) (opening offset : Nat) : Prop :=
  Encloses classes opening offset ∧ ∀ other, Encloses classes other offset → other ≤ opening

/-- Every closing bracket in front of the offset closes a list. -/
def NoStrayClose (classes : List ByteClass) (offset : Nat) : Prop :=
  ∀ pos < offset, classes[pos]? = some .closing → openBackward classes pos 0 ≠ none

variable {classes : List ByteClass} {opening offset : Nat}

theorem exists_append_of_getElem? {index : Nat} {cls : ByteClass}
    (isClass : classes[index]? = some cls) :
    ∃ front rest, classes = front ++ cls :: rest ∧ front.length = index := by
  obtain ⟨inRange, rfl⟩ := List.getElem?_eq_some_iff.mp isClass
  refine ⟨classes.take index, classes.drop (index + 1), ?_, ?_⟩
  · rw [← List.drop_eq_getElem_cons inRange, List.take_append_drop]
  · rw [List.length_take, Nat.min_eq_left (Nat.le_of_lt inRange)]

theorem drop_of_take_eq {front inner : List ByteClass}
    (split : classes.take offset = front ++ inner) :
    classes.drop front.length = inner ++ classes.drop offset := by
  have whole : classes = front ++ (inner ++ classes.drop offset) := by
    rw [← List.append_assoc, ← split, List.take_append_drop]
  rw [whole, List.drop_left, ← whole]

theorem take_of_take_eq {front inner : List ByteClass}
    (split : classes.take offset = front ++ inner) : classes.take front.length = front := by
  have length := congrArg List.length split
  rw [List.length_take, List.length_append] at length
  have cut := congrArg (List.take front.length) split
  rwa [List.take_left, List.take_take, Nat.min_eq_left (by omega)] at cut

theorem getElem?_of_openBackward (found : openBackward classes offset 0 = some opening) :
    classes[opening]? = some .opening := by
  obtain ⟨front, inner, split, _, rfl⟩ := openBackward_eq_some_iff.mp found
  have isBefore := (openBackward_lt found).1
  have read := congrArg (·[front.length]?) split
  simpa [List.getElem?_take, isBefore] using read

theorem encloses_of_openBackward (within : offset ≤ classes.length)
    (found : openBackward classes offset 0 = some opening) : Encloses classes opening offset := by
  obtain ⟨front, inner, split, balanced, rfl⟩ := openBackward_eq_some_iff.mp found
  have length := congrArg List.length split
  simp only [List.length_take, List.length_append, List.length_cons] at length
  have after : classes.drop (front.length + 1) = inner ++ classes.drop offset := by
    rw [← List.drop_drop, drop_of_take_eq split]
    rfl
  refine ⟨by omega, getElem?_of_openBackward found, ?_⟩
  intro stop closed
  rw [closeForward, after, balanced.closeWithin_append, Option.map_map,
    Option.map_eq_some_iff] at closed
  obtain ⟨count, foundCount, rfl⟩ := closed
  have bounds := closeWithin_bounds foundCount
  simp only [Function.comp_apply]
  omega

/-- In a list around an offset some list is open at the offset. -/
theorem exists_open_of_encloses (encloses : Encloses classes opening offset) :
    ∃ inner, openBackward classes offset 0 = some inner ∧ opening ≤ inner := by
  obtain ⟨isBefore, isOpening, closesAfter⟩ := encloses
  have inFront : (classes.take offset)[opening]? = some .opening := by
    rw [List.getElem?_take, if_pos isBefore, isOpening]
  obtain ⟨front, rest, split, rfl⟩ := exists_append_of_getElem? inFront
  have unclosed : closeWithin 0 rest = none := by
    rw [Option.eq_none_iff_forall_ne_some]
    intro count closed
    obtain ⟨inner, later, rfl, balanced, rfl⟩ := closeWithin_eq_some_iff.mp closed
    have after : classes.drop (front.length + 1) =
        inner ++ .closing :: (later ++ classes.drop offset) := by
      rw [← List.drop_drop, drop_of_take_eq split]
      simp
    have stop := closesAfter _ (closeForward_eq_some_iff.mpr ⟨inner, _, after, balanced, rfl⟩)
    have length := congrArg List.length split
    simp only [List.length_take, List.length_append, List.length_cons] at length
    omega
  obtain ⟨before, inner, leftOpen, balanced, length⟩ := exists_open_of_unclosed front unclosed
  exact ⟨before.length, openBackward_eq_some_iff.mpr
    ⟨before, inner, split.trans leftOpen, balanced, rfl⟩, length⟩

/-- Matching backward finds the innermost list around an offset. -/
theorem openBackward_eq_some_iff_isInnermost (within : offset ≤ classes.length) :
    openBackward classes offset 0 = some opening ↔ IsInnermost classes opening offset := by
  constructor
  · intro found
    refine ⟨encloses_of_openBackward within found, ?_⟩
    intro other encloses
    obtain ⟨inner, foundInner, outside⟩ := exists_open_of_encloses encloses
    rw [found, Option.some.injEq] at foundInner
    omega
  · rintro ⟨encloses, greatest⟩
    obtain ⟨inner, foundInner, outside⟩ := exists_open_of_encloses encloses
    have inside := greatest inner (encloses_of_openBackward within foundInner)
    rw [foundInner, Option.some.injEq]
    omega

theorem openBackward_eq_none (outside : ∀ opening, ¬ Encloses classes opening offset)
    (within : offset ≤ classes.length) : openBackward classes offset 0 = none := by
  rw [Option.eq_none_iff_forall_ne_some]
  intro opening found
  exact outside opening (encloses_of_openBackward within found)

/-- Outside all lists and behind no stray bracket, the brackets match up. -/
theorem balanced_take_of_noStrayClose (unopened : openBackward classes offset 0 = none)
    (noStray : NoStrayClose classes offset) : Balanced (classes.take offset) := by
  rw [openBackward, before_eq, Option.map_eq_none_iff] at unopened
  rcases balanced_or_closed_of_openWithin unopened with
    balanced | ⟨front, inner, split, _, frontUnopened⟩
  · exact balanced
  · have length := congrArg List.length split
    simp only [List.length_take, List.length_append, List.length_cons] at length
    have isClosing := congrArg (·[front.length]?) split
    refine absurd ?_ (noStray front.length (by omega) ?_)
    · rw [openBackward, before_eq, take_of_take_eq split, frontUnopened]
      rfl
    · simpa [List.getElem?_take, show front.length < offset by omega] using isClosing

/-- A stray bracket in front of an offset is met at depth zero. -/
theorem noStrayClose_of_closeWithin (unclosed : closeWithin 0 (classes.take offset) = none) :
    NoStrayClose classes offset := by
  intro pos isBefore isClosing unopened
  rw [openBackward, before_eq, Option.map_eq_none_iff] at unopened
  have inFront : (classes.take offset)[pos]? = some .closing := by
    rw [List.getElem?_take, if_pos isBefore, isClosing]
  obtain ⟨front, rest, split, rfl⟩ := exists_append_of_getElem? inFront
  rw [take_of_take_eq split] at unopened
  rw [split] at unclosed
  exact closeWithin_ne_none_of_unopened rest unopened unclosed

end SchemeLayout
