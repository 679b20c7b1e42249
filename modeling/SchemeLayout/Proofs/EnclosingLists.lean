import SchemeLayout.Proofs.NavigatorSpans

/-!
The lists around an offset, and the one that the move up finds.

Two lists around one offset lie inside each other: the one that opens later ends no
later.  This holds also where brackets are missing, since a list that is never
closed lies only in lists that are never closed.  The move up counts brackets
backward to the start of the innermost list and forward to its end, and what it
finds lies inside all the other lists around the offset.
-/

set_option autoImplicit false

namespace SchemeLayout

/-- Where the list that opens at `opening` ends: behind the bracket that closes it, or
with the table if it is never closed. -/
def listStop (classes : List ByteClass) (opening : Nat) : Nat :=
  (closeForward classes (opening + 1) 0).getD classes.length

variable {classes : List ByteClass} {offset : Nat}

theorem listStop_le_length (classes : List ByteClass) (opening : Nat) :
    listStop classes opening ≤ classes.length := by
  rw [listStop]
  cases closed : closeForward classes (opening + 1) 0 with
  | none => exact Nat.le_refl _
  | some stop => exact (closeForward_bounds closed).2

/-- Of two lists around an offset, the one that opens later ends no later. -/
theorem Encloses.listStop_le {outer inner : Nat} (outside : Encloses classes outer offset)
    (inside : Encloses classes inner offset) (ordered : outer < inner) :
    listStop classes inner ≤ listStop classes outer := by
  cases closed : closeForward classes (outer + 1) 0 with
  | none =>
      rw [listStop.eq_def classes outer, closed]
      exact listStop_le_length classes inner
  | some stop =>
      have isBefore := outside.2.2 stop closed
      obtain ⟨innerBefore, isOpening, _⟩ := inside
      obtain ⟨body, rest, split, balanced, rfl⟩ := closeForward_eq_some_iff.mp closed
      -- The inner list opens in the body of the outer one, where every list is closed.
      obtain ⟨index, rfl⟩ := Nat.exists_eq_add_of_le (Nat.succ_le_of_lt ordered)
      have inBody : body[index]? = some .opening := by
        rw [← List.getElem?_drop, split, List.getElem?_append_left (by omega)] at isOpening
        exact isOpening
      obtain ⟨front, after, rfl, rfl⟩ := exists_append_of_getElem? inBody
      obtain ⟨count, found⟩ := Option.ne_none_iff_exists'.mp balanced.closeWithin_ne_none
      obtain ⟨deep, later, rfl, deepBalanced, rfl⟩ := closeWithin_eq_some_iff.mp found
      have behind : classes.drop (outer + 1 + front.length + 1) =
          deep ++ .closing :: (later ++ .closing :: rest) := by
        rw [Nat.add_assoc, ← List.drop_drop, split, List.append_assoc, ← List.drop_drop,
          List.drop_left]
        simp
      have innerClosed := closeForward_eq_some_iff.mpr ⟨deep, _, behind, deepBalanced, rfl⟩
      simp only [listStop, Nat.succ_eq_add_one, innerClosed, closed, Option.getD_some,
        List.length_append, List.length_cons]
      omega

/-- Matching backward starts at the end of the table at the latest. -/
theorem openBackward_min (classes : List ByteClass) (offset : Nat) :
    openBackward classes (min offset classes.length) 0 = openBackward classes offset 0 := by
  have sameBefore : before classes (min offset classes.length) = before classes offset := by
    rw [before_eq, before_eq, ← List.take_eq_take_min]
  rw [openBackward, openBackward, sameBefore, Nat.min_assoc, Nat.min_self]

namespace Navigator

/-- The move up finds the list that matching backward finds, as a whole. -/
theorem move_up_cases (navigator : Navigator) (offset : Nat) :
    (openBackward navigator.source.classes offset 0 = none ∧
      navigator.move .up offset = (.ok false, navigator)) ∨
    ∃ opening, openBackward navigator.source.classes offset 0 = some opening ∧
      navigator.move .up offset = (.ok true, { navigator with
        span := ⟨opening, listStop navigator.source.classes opening, .list⟩ }) := by
  cases found : openBackward navigator.source.classes offset 0 with
  | none => exact .inl ⟨rfl, by simp [move, settle, locate, Source.enclosing?, found]⟩
  | some opening =>
      exact .inr ⟨opening, rfl, by simp [move, settle, locate, Source.enclosing?, found, listStop]⟩

/-- The move up succeeds where some list is around the offset, taken back to the end of
the text.  It finds the innermost of them, from its opening bracket to behind its
closing bracket, or to the end of the text if that is missing; all the other lists
around the offset open before it and end no earlier. -/
theorem move_up_isInnermost (navigator : Navigator) (offset : Nat) :
    let classes := navigator.source.classes
    let clamped := min offset navigator.source.length
    let answer := (navigator.move .up offset).1
    let list := (navigator.move .up offset).2.span
    (answer = .ok true ↔ ∃ opening, Encloses classes opening clamped) ∧
    (answer = .ok true →
      IsInnermost classes list.start clamped ∧
      (∀ stop, closeForward classes (list.start + 1) 0 = some stop →
        list.stop = stop ∧ clamped < stop) ∧
      (closeForward classes (list.start + 1) 0 = none → list.stop = navigator.source.length) ∧
      ∀ other, Encloses classes other clamped → other ≠ list.start →
        other < list.start ∧ list.stop ≤ listStop classes other) := by
  intro classes clamped answer list
  have length : classes.length = navigator.source.length := navigator.source.length_classes
  have within : clamped ≤ classes.length := length ▸ Nat.min_le_right _ _
  have sameOpen : openBackward classes clamped 0 = openBackward classes offset 0 := by
    rw [← openBackward_min classes offset, length]
  rcases navigator.move_up_cases offset with ⟨outside, moved⟩ | ⟨opening, found, moved⟩
  · have isAnswer : answer = .ok false := congrArg Prod.fst moved
    rw [isAnswer]
    refine ⟨⟨nofun, ?_⟩, nofun⟩
    rintro ⟨opening, encloses⟩
    obtain ⟨inner, foundInner, _⟩ := exists_open_of_encloses encloses
    rw [sameOpen, outside] at foundInner
    contradiction
  · have isAnswer : answer = .ok true := congrArg Prod.fst moved
    have isList : list = ⟨opening, listStop classes opening, .list⟩ :=
      congrArg (fun result => result.2.span) moved
    have innermost := (openBackward_eq_some_iff_isInnermost within).mp (sameOpen.trans found)
    rw [isAnswer, isList]
    refine ⟨⟨fun _ => ⟨opening, innermost.1⟩, fun _ => rfl⟩, fun _ => ⟨innermost, ?_, ?_, ?_⟩⟩
    · intro stop closed
      refine ⟨?_, innermost.1.2.2 stop closed⟩
      simp only [listStop, closed, Option.getD_some]
    · intro unclosed
      simp only [listStop, unclosed, Option.getD_none, length]
    · intro other encloses different
      have isBefore := Nat.lt_of_le_of_ne (innermost.2 other encloses) different
      exact ⟨isBefore, encloses.listStop_le innermost.1 isBefore⟩

/-- A closed list in one that is never closed, behind a stray bracket, and an offset
behind the end of the text. -/
theorem move_up_over_stray_bracket :
    let navigator : Navigator := { source := .ofString ")(a (b)" }
    (navigator.move .up 5).2.span = ⟨4, 7, .list⟩ ∧
      IsInnermost (Source.ofString ")(a (b)").classes 4 5 ∧
      (navigator.move .up 9).2.span = ⟨1, 7, .list⟩ ∧
      IsInnermost (Source.ofString ")(a (b)").classes 1 7 := by
  intro navigator
  have isInner : (navigator.move .up 5).2.span = ⟨4, 7, .list⟩ := by decide +kernel
  have isOuter : (navigator.move .up 9).2.span = ⟨1, 7, .list⟩ := by decide +kernel
  have inner := ((navigator.move_up_isInnermost 5).2 rfl).1
  have outer := ((navigator.move_up_isInnermost 9).2 rfl).1
  rw [isInner] at inner
  rw [isOuter] at outer
  exact ⟨isInner, inner, isOuter, outer⟩

end Navigator

end SchemeLayout
