import SchemeLayout.Layout.Reindent
import SchemeLayout.Proofs.FormTree
import SchemeLayout.Proofs.LexerRun

/-!
The text above a line, seen alone and with more text behind it.

The lexer looks ahead behind a hash only, so a text that ends with a line break
has the same classes whatever comes after it.  The same then holds for all that
is found by moving backward, for the starts of the lines, and for columns.
-/

set_option autoImplicit false

namespace SchemeLayout

/-! ## Moves backward -/

section Backward

variable {classes short : List ByteClass} {pos : Nat}

theorem before_of_take_eq (agree : classes.take short.length = short) (within : pos ≤ short.length) :
    before classes pos = before short pos := by
  rw [before_eq, before_eq, ← agree, List.take_take, Nat.min_eq_left within]

theorem openBackward_of_take_eq (agree : classes.take short.length = short)
    (within : pos ≤ short.length) : openBackward classes pos 0 = openBackward short pos 0 := by
  have longer := congrArg List.length agree
  rw [List.length_take] at longer
  rw [openBackward, openBackward, before_of_take_eq agree within, Nat.min_eq_left within,
    Nat.min_eq_left (by omega)]

theorem formBackward_of_take_eq (agree : classes.take short.length = short)
    (within : pos ≤ short.length) : formBackward classes pos = formBackward short pos := by
  have longer := congrArg List.length agree
  rw [List.length_take] at longer
  rw [formBackward, formBackward, before_of_take_eq agree within, Nat.min_eq_left within,
    Nat.min_eq_left (by omega)]

/-- To step back over balanced classes does not leave the list. -/
theorem openBackward_of_balanced {front inner : List ByteClass}
    (split : classes.take pos = front ++ inner) (balanced : Balanced inner) :
    openBackward classes pos 0 = openBackward classes front.length 0 := by
  have length := congrArg List.length split
  simp only [List.length_take, List.length_append] at length
  rw [openBackward, openBackward, before_eq, before_eq, take_of_take_eq split, split,
    List.reverse_append,
    openWithin_eq, openWithin_eq, List.map_append, balanced.flipped.closeWithin_append,
    Option.map_map, length, Nat.min_eq_left (by omega)]
  congr 1
  funext count
  simp only [List.length_map, List.length_reverse, Function.comp_apply]
  omega

/-- To step back over a form does not leave the list. -/
theorem openBackward_formBackward {form : Form} (found : formBackward classes pos = some form) :
    openBackward classes form.start 0 = openBackward classes pos 0 := by
  obtain ⟨reading, read, rfl⟩ := Option.map_eq_some_iff.mp found
  rw [before_eq] at read
  have reads := readBackward_reverse_eq_some_iff.mp read
  rw [Reading.start_formBefore]
  generalize whole : classes.take pos = passed at reads
  have length := congrArg List.length whole
  rw [List.length_take] at length
  cases reads with
  | @datum front lead body gap shape trivia marks datum unmarked apart =>
      have inner : Balanced (lead ++ (body ++ gap)) :=
        (Balanced.of_isLead marks.isLead).append
          (datum.balanced.append (.of_isLead trivia.isLead))
      rw [openBackward_of_balanced whole inner, length]
      congr 1
      simp only [Reading.size, List.length_append]
      omega
  | @unopened inner gap trivia unopened =>
      -- The form takes all that is left, and its bracket closes none of the lists around.
      have split : classes.take pos = (inner ++ [.closing]) ++ gap := by simp [whole]
      have unmatched : openWithin 1 inner.reverse = none := by
        rw [openWithin_eq] at unopened ⊢
        rw [closeWithin_succ, unopened]
        rfl
      have atStart : min pos classes.length -
          Reading.size ⟨gap.length, 0, inner.length + 1, .list⟩ = 0 := by
        simp only [Reading.size, List.length_append, List.length_cons] at length ⊢
        omega
      rw [openBackward_of_balanced split (.of_isLead trivia.isLead), atStart, openBackward,
        openBackward, before_eq, before_eq, take_of_take_eq split, List.reverse_concat,
        openWithin, unmatched]
      rfl
  | @dangling front marks gap trivia isMarks last unmarked =>
      have inner : Balanced (marks ++ gap) :=
        (Balanced.of_isLead isMarks.isLead).append (.of_isLead trivia.isLead)
      rw [openBackward_of_balanced whole inner, length]
      congr 1
      simp only [Reading.size, List.length_append]
      omega

end Backward

/-! ## Lines -/

/-- In an increasing list, the entries up to a bound come first. -/
theorem filter_le_eq_take {starts : List Nat} (sorted : starts.Pairwise (· < ·)) (bound : Nat) :
    starts.filter (· ≤ bound) = starts.take (starts.countP (· ≤ bound)) := by
  induction starts with
  | nil => rfl
  | cons start starts inductionHypothesis =>
      obtain ⟨least, sortedRest⟩ := List.pairwise_cons.mp sorted
      by_cases within : start ≤ bound
      · simp [within, inductionHypothesis sortedRest]
      · have beyond : starts.countP (· ≤ bound) = 0 := by
          rw [List.countP_eq_zero]
          intro other member
          have later := least other member
          simp only [decide_eq_true_eq]
          omega
        simp [within, inductionHypothesis sortedRest, beyond]

theorem filter_lineStartsAfter_append {above : Bytes} {offset bound : Nat}
    (within : bound < offset + above.length) (below : Bytes) :
    (lineStartsAfter offset (above ++ below)).filter (· ≤ bound) =
      (lineStartsAfter offset above).filter (· ≤ bound) := by
  have beyond {start : Nat} {bytes : Bytes} (isBefore : bound ≤ start) :
      (lineStartsAfter start bytes).filter (· ≤ bound) = [] := by
    rw [List.filter_eq_nil_iff]
    intro other member
    have later := (mem_lineStartsAfter member).1
    simp only [decide_eq_true_eq]
    omega
  induction above generalizing offset with
  | nil => rw [beyond (by simp at within; omega), beyond (by simp at within; omega)]
  | cons byte above inductionHypothesis =>
      by_cases isBefore : bound ≤ offset
      · rw [beyond isBefore, beyond isBefore]
      · cases above with
        | nil => simp at within; omega
        | cons second above =>
            have closer : bound < offset + 1 + (second :: above).length := by
              simp only [List.length_cons] at within ⊢
              omega
            have rest := inductionHypothesis closer
            have sameNext : (second :: above ++ below).head? = (second :: above).head? := rfl
            by_cases ends : endsLine byte (second :: above).head? = true
            · rw [List.cons_append, lineStartsAfter, lineStartsAfter, if_pos ends,
                if_pos (by rwa [sameNext]), List.filter_cons, List.filter_cons, rest]
            · rw [List.cons_append, lineStartsAfter, lineStartsAfter, if_neg ends,
                if_neg (by rwa [sameNext]), rest]

namespace Source

variable {source : Source} {above below : Bytes}

theorem lineStart_eq (source : Source) {offset : Nat} (within : offset ≤ source.length) :
    source.lineStart offset = ((lineStarts source.bytes).filter (· ≤ offset)).getLastD 0 := by
  have sorted := pairwise_lineStarts source.bytes
  have some : 0 < (lineStarts source.bytes).countP (· ≤ offset) := by
    simp [lineStarts]
  have bound : (lineStarts source.bytes).countP (· ≤ offset) ≤ _ := List.countP_le_length
  rw [lineStart, lineOf, lineAt, Nat.min_eq_left within, source.starts_eq,
    filter_le_eq_take sorted, List.getLastD_eq_getLast?, List.getLast?_take,
    if_neg (by omega), List.getD_eq_getElem?_getD, List.getElem?_eq_getElem (by omega)]
  rfl

section Above

variable (split : source.bytes = above ++ below)

include split

theorem length_above_le : above.length ≤ source.length := by
  rw [length, split, List.length_append]
  omega

theorem range_above (start : Nat) {stop : Nat} (within : stop ≤ above.length) :
    source.range start stop = (ofBytes above).range start stop := by
  rw [range, range, split, bytes_ofBytes]
  by_cases ordered : start ≤ stop
  · rw [List.drop_append_of_le_length (by omega),
      List.take_append_of_le_length (by rw [List.length_drop]; omega)]
  · rw [show stop - start = 0 by omega, List.take_zero, List.take_zero]

theorem lineStart_above {offset : Nat} (within : offset < above.length) :
    source.lineStart offset = (ofBytes above).lineStart offset := by
  have longer := length_above_le split
  have same : (lineStarts source.bytes).filter (· ≤ offset) =
      (lineStarts above).filter (· ≤ offset) := by
    rw [split, lineStarts, lineStarts, List.filter_cons, List.filter_cons,
      filter_lineStartsAfter_append (by omega)]
  rw [source.lineStart_eq (by omega), (ofBytes above).lineStart_eq (Nat.le_of_lt within), same]
  rfl

theorem columnSum_above (tabWidth : UInt32) {offset : Nat} (within : offset < above.length) :
    source.columnSum tabWidth offset = (ofBytes above).columnSum tabWidth offset := by
  rw [columnSum, columnSum, lineFront, lineFront, lineStart_above split within,
    range_above split _ (Nat.le_of_lt within)]

variable (ended : EndsWithBreak above)

include ended

theorem take_classes_above :
    source.classes.take (ofBytes above).classes.length = (ofBytes above).classes := by
  rw [source.classes_eq, split, classes_ofBytes, length_classify, take_classify_append ended]

theorem insideLiteral_above :
    source.insideLiteral above.length = (ofBytes above).insideLiteral above.length := by
  have agree := take_classes_above split ended
  rw [length_classes, length_ofBytes] at agree
  by_cases isStart : 0 < above.length
  · have same :
        source.classAt? (above.length - 1) = (ofBytes above).classAt? (above.length - 1) := by
      rw [classAt?, classAt?, ← agree, List.getElem?_take_of_lt (by omega)]
    rw [insideLiteral, insideLiteral, same]
  · rw [insideLiteral, insideLiteral, decide_eq_false isStart, Bool.false_and, Bool.false_and]

end Above

/-- The check of a line start looks at the class of the line break alone.  It finds out
whether the lexer is inside a string or a block comment there. -/
theorem insideLiteral_eq_inLiteral (ended : EndsWithBreak above) :
    (ofBytes above).insideLiteral above.length = (stateBehind above).inLiteral := by
  rcases List.eq_nil_or_concat above with rfl | ⟨front, byte, isAbove⟩
  · rfl
  · have notEmpty : above ≠ [] := by simp [isAbove]
    have positive := List.length_pos_iff.mpr notEmpty
    obtain ⟨before, isLast, isState⟩ :=
      LexState.between.exists_step_of_getLast? (ended.getLast?_map notEmpty)
    have isClass : (ofBytes above).classAt? (above.length - 1) =
        some (before.step .lineBreak none).1 := by
      rw [classAt?, classes_ofBytes, ← isLast, List.getLast?_eq_getElem?, length_classifyFrom,
        List.length_map, classify]
    rw [insideLiteral, isClass, stateBehind, isState, (before.step_lineBreak_cases).1,
      decide_eq_true positive]
    rfl

end Source

end SchemeLayout
