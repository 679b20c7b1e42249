import SchemeLayout.Proofs.ListInterior
import SchemeLayout.Proofs.TextAbove

/-!
The moves that find an anchor.

The anchor of an offset is found by moving back to the last form, up to the list
around that form, down into the list, and forward to its head.  To move over a form
does not leave the list, so the list found from the last form is the one around the
offset.  And since that form stands in the list, the way down and forward is always
open: the list is entered, and its head comes no later than the form.
-/

set_option autoImplicit false

namespace SchemeLayout

section Positions

variable {classes : List ByteClass} {pos opening : Nat} {form : Form}

/-- To step over a form does not leave the list, unless the form is a list that is never
closed. -/
theorem openBackward_formForward (found : formForward classes pos = some form)
    (closed : form.shape = .list → closeForward classes (form.body + 1) 0 ≠ none) :
    openBackward classes form.stop 0 = openBackward classes pos 0 := by
  have bounds := formForward_bounds found
  obtain ⟨reading, reads, rfl⟩ := exists_readsForward found
  rcases reads.balanced_or_unclosed with
    balanced | ⟨front, inner, split, _, unclosed, isList, length, _⟩
  · have passed := openBackward_of_balanced List.take_add balanced
    rwa [← Reading.stop_formAfter, List.length_take, Nat.min_eq_left (by omega)] at passed
  · refine absurd ?_ (closed isList)
    have inside : classes.drop ((reading.formAfter pos).body + 1) = inner := by
      rw [show (reading.formAfter pos).body + 1 = pos + (front.length + 1) by
        simp only [Reading.formAfter]; omega, ← List.drop_drop, split, ← List.drop_drop,
        List.drop_left]
      rfl
    rw [closeForward, inside, unclosed]
    rfl

/-- A form read backward starts with a class of its own, unless it takes all that is in
front of the position. -/
theorem exists_class_at_start (found : formBackward classes pos = some form)
    (inFront : 0 < form.start) :
    ∃ cls, classes[form.start]? = some cls ∧ cls.isTrivia = false := by
  obtain ⟨reading, reads, rfl⟩ := exists_readsBackward found
  rw [Reading.start_formBefore] at inFront ⊢
  rcases reads.exists_first with whole | ⟨front, cls, rest, split, isStart, significant, _⟩
  · omega
  · refine ⟨cls, ?_, significant⟩
    rw [isStart, ← List.head?_drop, drop_of_take_eq split]
    rfl

/-- A position in a list does not lie behind the end of the list. -/
theorem le_insideStop_of_openBackward (around : openBackward classes pos 0 = some opening) :
    min pos classes.length ≤ insideStop classes (opening + 1) := by
  rcases insideStop_cases classes (opening + 1) with closed | ⟨_, isEnd⟩
  · rw [← openBackward_min] at around
    have encloses := encloses_of_openBackward (Nat.min_le_right _ _) around
    exact Nat.le_of_lt_succ (encloses.2.2 _ closed)
  · rw [isEnd]
    exact Nat.min_le_right _ _

/-- A list with a form in it has a head, which starts no later than the form. -/
theorem exists_head_of_formBackward (found : formBackward classes pos = some form)
    (around : openBackward classes form.start 0 = some opening) :
    ∃ head, formForward classes (opening + 1) = some head ∧ opening < head.start ∧
      head.start ≤ form.start := by
  have isBehind := (openBackward_lt around).1
  have bounds := formBackward_bounds found
  have inside := le_insideStop_of_openBackward ((openBackward_formBackward found).symm.trans around)
  obtain ⟨cls, isClass, significant⟩ := exists_class_at_start found (by omega)
  -- What is passed on the way to the head is trivia, and the form starts with none.
  have notPassed {stop : Nat} (trivia : TriviaBetween classes (opening + 1) stop) :
      stop ≤ form.start := by
    apply Nat.le_of_not_lt
    intro isBefore
    obtain ⟨other, isOther, isTrivia⟩ := trivia form.start isBehind isBefore
    rw [Option.mem_def, isClass, Option.some.injEq] at isOther
    subst isOther
    rw [significant] at isTrivia
    contradiction
  cases isHead : formForward classes (opening + 1) with
  | none =>
      have passed := notPassed (formForward_eq_none_iff.mp isHead)
      omega
  | some head =>
      exact ⟨head, rfl, (formForward_bounds isHead).1, notPassed (triviaBetween_start isHead)⟩

end Positions

namespace Navigator

variable {navigator atPrevious atList : Navigator} {offset : Nat}

theorem exists_form_of_move_backward
    (moved : navigator.move .backward offset = (.ok true, atPrevious)) :
    ∃ form, formBackward navigator.source.classes offset = some form ∧
      atPrevious = { navigator with span := navigator.source.spanOf form } := by
  obtain ⟨_, located, isPrevious⟩ := move_eq_true_iff.mp moved
  obtain ⟨form, found, rfl⟩ := locate_backward_eq.mp located
  exact ⟨form, found, isPrevious⟩

/-- Moves up from two positions in one list find the same. -/
theorem move_up_congr {earlier : Nat}
    (sameList : openBackward navigator.source.classes earlier 0 =
      openBackward navigator.source.classes offset 0) :
    navigator.move .up earlier = navigator.move .up offset := by
  simp only [move, settle, locate, Source.enclosing?, sameList]

/-- To move over a form does not leave the list.  Back over a form this holds of every
class table, also where the form is all that a stray bracket takes; forward over a
form it holds unless the form is a list that is never closed.  So the anchor of an
offset, which looks for the list around the last form, finds the list around the
offset itself. -/
theorem sibling_moves_keep_list :
    (∀ (classes : List ByteClass) (pos : Nat) (form : Form),
      formBackward classes pos = some form →
      openBackward classes form.start 0 = openBackward classes pos 0) ∧
    (∀ (classes : List ByteClass) (pos : Nat) (form : Form),
      formForward classes pos = some form →
      (form.shape = .list → closeForward classes (form.body + 1) 0 ≠ none) →
      openBackward classes form.stop 0 = openBackward classes pos 0) ∧
    ∀ (navigator atPrevious : Navigator) (offset : Nat),
      navigator.move .backward offset = (.ok true, atPrevious) →
      atPrevious.move .up atPrevious.span.start = atPrevious.move .up offset ∧
      navigator.source.anchor offset =
        match atPrevious.move .up offset with
        | (.ok true, atList) =>
            navigator.source.anchorInList atPrevious.span.start atList.span.start
        | _ => .topLevel atPrevious.span.start := by
  refine ⟨fun _ _ _ => openBackward_formBackward, fun _ _ _ => openBackward_formForward, ?_⟩
  intro navigator atPrevious offset moved
  obtain ⟨form, found, rfl⟩ := exists_form_of_move_backward moved
  have sameList := openBackward_formBackward found
  refine ⟨move_up_congr sameList, ?_⟩
  simp only [Source.anchor, Source.formBefore?, found, Option.map_some, Source.enclosing?,
    Source.start_spanOf, sameList, move, locate]
  cases openBackward navigator.source.classes offset 0 with
  | none => rfl
  | some opening => rfl

/-- Back over all that a stray bracket takes, forward over a quoted list, and a line
behind a list in a call. -/
theorem sibling_moves_keep_list_in_call :
    openBackward [.opening, .closing, .closing, .space] 0 0 =
        openBackward [.opening, .closing, .closing, .space] 4 0 ∧
      openBackward [.opening, .prefixMark, .opening, .closing] 4 0 =
        openBackward [.opening, .prefixMark, .opening, .closing] 1 0 ∧
      (Source.ofString "(f (a)").anchor 6 = .symbolHead 3 0 "f" := by
  obtain ⟨back, forward, anchor⟩ := sibling_moves_keep_list
  refine ⟨back _ 4 ⟨0, 0, 3, .list⟩ (by decide), ?_, ?_⟩
  · exact forward _ 1 ⟨1, 2, 4, .list⟩ (by decide) (by decide)
  · have moved := anchor { source := .ofString "(f (a)" } _ 6 <| move_eq_true_iff.mpr
      ⟨_, locate_backward_eq.mpr ⟨⟨3, 3, 6, .list⟩, by decide +kernel, rfl⟩, rfl⟩
    exact moved.2.trans (by decide +kernel)

/-- The way from the last form in front of an offset to the head of the list around it
never fails: the list is entered, and its head is found behind the opening bracket,
no later than the form.  The anchor is then the one that the kind of the head gives. -/
theorem anchor_reaches_head (behind : navigator.move .backward offset = (.ok true, atPrevious))
    (around : atPrevious.move .up atPrevious.span.start = (.ok true, atList)) :
    ∃ inside atHead : Navigator,
      atList.move .down atList.span.start = (.ok true, inside) ∧
      inside.move .forward inside.span.start = (.ok true, atHead) ∧
      atList.span.start < atHead.span.start ∧
      atHead.span.start ≤ atPrevious.span.start ∧
      navigator.source.anchor offset =
        match atHead.span.kind with
        | .symbol => .symbolHead atPrevious.span.start atList.span.start atHead.text
        | .list => .listHead atHead.span.start
        | .string | .atom => .leafHead atPrevious.span.start := by
  obtain ⟨form, found, rfl⟩ := exists_form_of_move_backward behind
  obtain ⟨_, located, rfl⟩ := move_eq_true_iff.mp around
  obtain ⟨opening, isAround, rfl⟩ := locate_up_eq.mp located
  obtain ⟨head, isHead, isBehind, isBefore⟩ := exists_head_of_formBackward found isAround
  refine ⟨_, _, move_down_of_opening _ (getElem?_of_openBackward isAround),
    move_forward_eq_true_iff.mpr ⟨head, isHead, rfl⟩, isBehind, isBefore, ?_⟩
  exact Source.anchor_of_children found isAround isHead

/-- The last form is itself the head, behind a comment and in a list that is never
closed. -/
theorem anchor_reaches_quoted_head :
    let navigator : Navigator := { source := .ofString "(;c\n 'x (b" }
    let atPrevious := (navigator.move .backward 8).2
    let atList := (atPrevious.move .up atPrevious.span.start).2
    atPrevious.span = ⟨5, 7, .atom⟩ ∧ atList.span = ⟨0, 10, .list⟩ ∧
      ∃ inside atHead : Navigator,
        atList.move .down 0 = (.ok true, inside) ∧
        inside.move .forward inside.span.start = (.ok true, atHead) ∧
        0 < atHead.span.start ∧ atHead.span.start ≤ 5 := by
  intro navigator atPrevious atList
  have isPrevious : atPrevious.span = ⟨5, 7, .atom⟩ := by decide +kernel
  have isList : atList.span = ⟨0, 10, .list⟩ := by decide +kernel
  have reached := @anchor_reaches_head navigator atPrevious atList 8 rfl rfl
  rw [isPrevious, isList] at reached
  obtain ⟨inside, atHead, entered, moved, isBehind, isBefore, _⟩ := reached
  exact ⟨isPrevious, isList, inside, atHead, entered, moved, isBehind, isBefore⟩

end Navigator

end SchemeLayout
