import SchemeLayout.Form.CheckedScan
import SchemeLayout.Proofs.FormGrammar

/-!
The checked scans have no faults.

A scan that goes from index to index comes to the same answer as the one on lists, if
the table is not longer than a word can count.  So no scan ever reads outside the
table, subtracts from zero, loses count of the open lists or stops moving on, and
neither does any move of a navigator.  Each loop is compared with the function on
lists that gives its result: a run with `runLength`, the search for a bracket with
`closeWithin` and `openWithin`, a chain of prefix marks with `markLength`.
-/

set_option autoImplicit false

namespace SchemeLayout

variable {classes : List ByteClass} {cls : ByteClass} {pos : Nat}

/-! ## The classes around a position -/

theorem drop_of_getElem? (found : classes[pos]? = some cls) :
    classes.drop pos = cls :: classes.drop (pos + 1) := by
  obtain ⟨inRange, rfl⟩ := List.getElem?_eq_some_iff.mp found
  exact List.drop_eq_getElem_cons inRange

theorem before_of_getElem? (found : classes[pos]? = some cls) :
    before classes (pos + 1) = cls :: before classes pos := by
  rw [before_eq, before_eq, List.take_add_one, found]
  simp

theorem drop_min (classes : List ByteClass) (pos : Nat) :
    classes.drop (min pos classes.length) = classes.drop pos := by
  rcases Nat.le_total pos classes.length with within | beyond
  · rw [Nat.min_eq_left within]
  · rw [Nat.min_eq_right beyond, List.drop_length, List.drop_of_length_le beyond]

theorem before_min (classes : List ByteClass) (pos : Nat) :
    before classes (min pos classes.length) = before classes pos := by
  rw [← Nat.sub_zero (min pos classes.length), ← drop_before, List.drop_zero]

theorem runLength_beq_of_ne {wanted : ByteClass} (different : cls ≠ wanted)
    (rest : List ByteClass) : runLength (· == wanted) (cls :: rest) = 0 := by
  simp [runLength, different]

theorem add_runLength_le (wanted : ByteClass → Bool) (within : pos ≤ classes.length) :
    pos + runLength wanted (classes.drop pos) ≤ classes.length := by
  have bound := runLength_le_length wanted (classes.drop pos)
  rw [List.length_drop] at bound
  omega

/-- A run of some classes starts with the part of it that has fewer classes. -/
theorem runLength_eq_add (narrow wide : ByteClass → Bool)
    (implies : ∀ cls, narrow cls = true → wide cls = true) (classes : List ByteClass) :
    runLength wide classes =
      runLength narrow classes + runLength wide (classes.drop (runLength narrow classes)) := by
  induction classes with
  | nil => rfl
  | cons cls rest inductionHypothesis =>
      cases isNarrow : narrow cls with
      | true =>
          rw [runLength_cons_pos isNarrow, runLength_cons_pos (implies cls isNarrow),
            List.drop_succ_cons, inductionHypothesis]
          omega
      | false => rw [runLength_cons_neg isNarrow, List.drop_zero, Nat.zero_add]

theorem markLength_eq_add (classes : List ByteClass) :
    markLength classes = runLength (· == .prefixMark) classes +
      markLength (classes.drop (runLength (· == .prefixMark) classes)) := by
  induction classes with
  | nil => rfl
  | cons cls rest inductionHypothesis =>
      by_cases isMark : cls = .prefixMark
      · subst isMark
        rw [runLength_cons_pos rfl, List.drop_succ_cons, markLength, inductionHypothesis]
        omega
      · rw [runLength_beq_of_ne isMark, List.drop_zero, Nat.zero_add]

theorem markLength_of_trivia (classes : List ByteClass) :
    markLength classes =
      if markLength (classes.drop (runLength ByteClass.isTrivia classes)) = 0 then 0
      else runLength ByteClass.isTrivia classes +
        markLength (classes.drop (runLength ByteClass.isTrivia classes)) := by
  induction classes with
  | nil => rfl
  | cons cls rest inductionHypothesis =>
      cases isTrivia : cls.isTrivia with
      | true =>
          rw [runLength_cons_pos isTrivia, List.drop_succ_cons]
          rw [markLength_trivia_cons isTrivia, inductionHypothesis]
          generalize markLength (rest.drop _) = marks
          split
          · rfl
          · rw [if_neg (by omega)]
            omega
      | false =>
          rw [runLength_cons_neg isTrivia, List.drop_zero, Nat.zero_add]
          split
          next isZero => exact isZero
          next => rfl

namespace Checked

theorem classAt_of_getElem? (found : classes[pos]? = some cls) : classAt classes pos = .ok cls := by
  simp only [classAt, found]

/-! ## Runs -/

theorem passForward_eq (wanted : ByteClass → Bool) (within : pos ≤ classes.length) :
    passForward classes wanted pos = .ok (pos + runLength wanted (classes.drop pos)) := by
  induction left : classes.length - pos generalizing pos with
  | zero =>
      rw [passForward, if_neg (by omega), List.drop_of_length_le (by omega)]
      rfl
  | succ left inductionHypothesis =>
      have inside : pos < classes.length := by omega
      have found := List.getElem?_eq_getElem inside
      generalize classes[pos] = cls at found
      rw [passForward, if_pos inside, classAt_of_getElem? found, drop_of_getElem? found]
      simp only [bind, Except.bind]
      cases isWanted : wanted cls with
      | true =>
          rw [if_pos rfl, inductionHypothesis inside (by omega), runLength_cons_pos isWanted,
            Nat.succ_add_eq_add_succ]
      | false =>
          rw [runLength_cons_neg isWanted]
          rfl

theorem passBackward_eq (wanted : ByteClass → Bool) (within : pos ≤ classes.length) :
    passBackward classes wanted pos = .ok (pos - runLength wanted (before classes pos)) := by
  induction pos with
  | zero =>
      rw [passBackward, Nat.zero_sub]
      rfl
  | succ pos inductionHypothesis =>
      have found := List.getElem?_eq_getElem within
      generalize classes[pos] = cls at found
      rw [passBackward, classAt_of_getElem? found, before_of_getElem? found]
      simp only [bind, Except.bind]
      cases isWanted : wanted cls with
      | true =>
          rw [if_pos rfl, inductionHypothesis (Nat.le_of_lt within), runLength_cons_pos isWanted,
            Nat.add_sub_add_right]
      | false =>
          rw [runLength_cons_neg isWanted]
          rfl

theorem skipTriviaForward_eq (classes : List ByteClass) (pos : Nat) :
    skipTriviaForward classes pos = .ok (SchemeLayout.skipTriviaForward classes pos) := by
  rw [skipTriviaForward, passForward_eq _ (Nat.min_le_right _ _), drop_min,
    SchemeLayout.skipTriviaForward]

theorem skipTriviaBackward_eq (classes : List ByteClass) (pos : Nat) :
    skipTriviaBackward classes pos = .ok (SchemeLayout.skipTriviaBackward classes pos) := by
  rw [skipTriviaBackward, passBackward_eq _ (Nat.min_le_right _ _), before_min,
    SchemeLayout.skipTriviaBackward]

/-! ## Brackets -/

theorem toNat_deepen {depth : UInt32} (fits : depth.toNat + 1 < UInt32.size) :
    deepen depth = .ok (depth + 1) ∧ (depth + 1).toNat = depth.toNat + 1 := by
  refine ⟨if_pos fits, ?_⟩
  rw [UInt32.toNat_add, UInt32.toNat_one]
  exact Nat.mod_eq_of_lt fits

theorem toNat_rise {depth : UInt32} (positive : depth ≠ 0) :
    rise depth = .ok (depth - 1) ∧ (depth - 1).toNat + 1 = depth.toNat := by
  have isPositive : 1 ≤ depth.toNat := by
    rw [Nat.one_le_iff_ne_zero]
    exact fun isZero => positive (UInt32.toNat_inj.mp isZero)
  refine ⟨if_neg positive, ?_⟩
  rw [UInt32.toNat_sub_of_le _ _ (by rwa [UInt32.le_iff_toNat_le, UInt32.toNat_one]),
    UInt32.toNat_one, Nat.sub_add_cancel isPositive]

/-- As long as a word counts all classes, the search for a closing bracket is the one on
lists. -/
theorem closeFrom_eq (pos : Nat) {depth : UInt32} {rest : List ByteClass}
    (fits : depth.toNat + rest.length < UInt32.size) :
    closeFrom pos depth rest = .ok ((closeWithin depth.toNat rest).map (pos + ·)) := by
  induction rest generalizing pos depth with
  | nil => rfl
  | cons cls rest inductionHypothesis =>
      rw [List.length_cons] at fits
      have shift (found : Option Nat) :
          found.map (pos + 1 + ·) = (found.map (· + 1)).map (pos + ·) := by
        cases found with
        | none => rfl
        | some count => simp only [Option.map_some, Nat.add_assoc, Nat.add_comm 1]
      cases cls with
      | opening =>
          obtain ⟨deeper, isDepth⟩ := toNat_deepen (show depth.toNat + 1 < UInt32.size by omega)
          simp only [closeFrom, closeWithin, deeper, bind, Except.bind]
          rw [inductionHypothesis (pos + 1) (by omega), shift, isDepth]
      | closing =>
          by_cases isZero : depth = 0
          · subst isZero
            rfl
          · obtain ⟨higher, isDepth⟩ := toNat_rise isZero
            simp only [closeFrom, if_neg isZero, higher, bind, Except.bind]
            rw [inductionHypothesis (pos + 1) (by omega), shift, ← isDepth, closeWithin]
      | space | comment | prefixMark | stringOpen | stringRest | atom =>
          simp only [closeFrom, closeWithin]
          rw [inductionHypothesis (pos + 1) (by omega), shift]

theorem openFrom_eq {depth : UInt32} {rest : List ByteClass}
    (fits : depth.toNat + rest.length < UInt32.size) :
    openFrom depth rest = .ok ((openWithin depth.toNat rest).map (rest.length - ·)) := by
  induction rest generalizing depth with
  | nil => rfl
  | cons cls rest inductionHypothesis =>
      rw [List.length_cons] at fits
      have shift (found : Option Nat) :
          found.map (rest.length - ·) = (found.map (· + 1)).map ((cls :: rest).length - ·) := by
        cases found with
        | none => rfl
        | some count => simp only [Option.map_some, List.length_cons, Nat.add_sub_add_right]
      cases cls with
      | closing =>
          obtain ⟨deeper, isDepth⟩ := toNat_deepen (show depth.toNat + 1 < UInt32.size by omega)
          simp only [openFrom, openWithin, deeper, bind, Except.bind]
          rw [inductionHypothesis (by omega), shift, isDepth]
      | opening =>
          by_cases isZero : depth = 0
          · subst isZero
            rfl
          · obtain ⟨higher, isDepth⟩ := toNat_rise isZero
            simp only [openFrom, if_neg isZero, higher, bind, Except.bind]
            rw [inductionHypothesis (by omega), shift, ← isDepth, openWithin]
      | space | comment | prefixMark | stringOpen | stringRest | atom =>
          simp only [openFrom, openWithin]
          rw [inductionHypothesis (by omega), shift]

section Table

variable (inLimit : classes.length ≤ maxLength)

include inLimit

theorem closeForward_eq (pos : Nat) :
    closeForward classes pos = .ok (SchemeLayout.closeForward classes pos 0) := by
  rw [closeForward, closeFrom_eq pos, SchemeLayout.closeForward]
  · rfl
  · rw [List.length_drop]
    simp only [maxLength, UInt32.size, UInt32.toNat_zero] at *
    omega

theorem openBackward_eq (pos : Nat) :
    openBackward classes pos = .ok (SchemeLayout.openBackward classes pos 0) := by
  rw [openBackward, if_pos (Nat.min_le_right _ _), ← before_eq, before_min, openFrom_eq,
    SchemeLayout.openBackward, length_before]
  · rfl
  · rw [length_before]
    simp only [maxLength, UInt32.size, UInt32.toNat_zero] at *
    omega

end Table

/-! ## Chains of prefix marks -/

/-- A step over prefix marks and the trivia behind them, and what it leaves of a chain. -/
structure PassesMarks (classes : List ByteClass) (pos marksEnd next : Nat) : Prop where
  passed : passMarks classes pos = .ok (marksEnd, next)
  within : next ≤ classes.length
  moves : classes[pos]? = some .prefixMark → pos < next
  stops : ∀ cls ∈ (classes.drop next).head?, cls.isTrivia = false
  leads : pos + runLength ByteClass.isLead (classes.drop pos) =
    next + runLength ByteClass.isLead (classes.drop next)
  ends : pos + markLength (classes.drop pos) =
    if markLength (classes.drop next) = 0 then marksEnd
    else next + markLength (classes.drop next)

theorem exists_passesMarks (within : pos ≤ classes.length) :
    ∃ marksEnd next, PassesMarks classes pos marksEnd next := by
  let marksEnd := pos + runLength (· == .prefixMark) (classes.drop pos)
  let next := marksEnd + runLength ByteClass.isTrivia (classes.drop marksEnd)
  have marksWithin : marksEnd ≤ classes.length := add_runLength_le _ within
  refine ⟨marksEnd, next, ?_, add_runLength_le _ marksWithin, ?_, ?_, ?_, ?_⟩
  · rw [passMarks, passForward_eq _ within]
    simp only [bind, Except.bind, skipTriviaForward_eq, SchemeLayout.skipTriviaForward]
    rw [Nat.min_eq_left marksWithin]
    rfl
  · intro isMark
    have positive : 0 < runLength (· == .prefixMark) (classes.drop pos) := by
      rw [drop_of_getElem? isMark, runLength_cons_pos rfl]
      exact Nat.succ_pos _
    exact Nat.lt_of_lt_of_le (Nat.lt_add_of_pos_right positive) (Nat.le_add_right marksEnd _)
  · intro cls isNext
    rw [← List.drop_drop] at isNext
    exact unwanted_after_run isNext
  · have marks := runLength_eq_add (· == .prefixMark) ByteClass.isLead
      (fun cls isMark => (ByteClass.isLead_iff cls).mpr (.inl (eq_of_beq isMark)))
      (classes.drop pos)
    have gap := runLength_eq_add ByteClass.isTrivia ByteClass.isLead
      (fun cls isTrivia => (ByteClass.isLead_iff cls).mpr (.inr isTrivia))
      (classes.drop marksEnd)
    rw [List.drop_drop] at marks gap
    rw [marks, gap, ← Nat.add_assoc, ← Nat.add_assoc]
  · have marks := markLength_eq_add (classes.drop pos)
    have gap := markLength_of_trivia (classes.drop marksEnd)
    rw [List.drop_drop] at marks gap
    rw [marks, gap, ← Nat.add_assoc]
    split
    · rfl
    · rw [← Nat.add_assoc]

theorem chainForward_eq (marksEnd : Nat) {body : Nat} (within : body ≤ classes.length)
    (notTrivia : ∀ cls ∈ (classes.drop body).head?, cls.isTrivia = false) :
    chainForward classes marksEnd body =
      .ok (if markLength (classes.drop body) = 0 then marksEnd
          else body + markLength (classes.drop body),
        body + runLength ByteClass.isLead (classes.drop body)) := by
  induction left : classes.length - body using Nat.strongRecOn generalizing marksEnd body with
  | _ left inductionHypothesis =>
      rw [chainForward]
      by_cases inside : body < classes.length
      · have found := List.getElem?_eq_getElem inside
        generalize classes[body] = cls at found
        rw [if_pos inside, classAt_of_getElem? found]
        simp only [bind, Except.bind]
        by_cases isMark : cls = .prefixMark
        · subst isMark
          obtain ⟨marks, next, step⟩ := exists_passesMarks within
          have marked : markLength (classes.drop body) ≠ 0 := by
            rw [drop_of_getElem? found]
            exact Nat.ne_of_gt (markLength_cons_pos _)
          have isFurther := step.moves found
          simp only [beq_self_eq_true, if_true, step.passed, if_pos isFurther]
          rw [inductionHypothesis _ (by omega) marks step.within step.stops rfl, if_neg marked,
            step.leads, step.ends]
        · have split := drop_of_getElem? found
          have notLead : cls.isLead = false := by
            rw [Bool.eq_false_iff, ne_eq, ByteClass.isLead_iff, notTrivia cls (by simp [split])]
            simp [isMark]
          rw [if_neg (by simpa using isMark), split, markLength_cons_of_not_isLead notLead,
            runLength_cons_neg notLead]
          rfl
      · rw [if_neg inside, List.drop_of_length_le (by omega)]
        rfl

theorem chainBackward_eq {start : Nat} (within : start ≤ classes.length) :
    chainBackward classes start = .ok (start - markLength (before classes start)) := by
  induction start using Nat.strongRecOn with
  | _ start inductionHypothesis =>
      have chain := markLength_of_trivia (before classes start)
      have gapBound := runLength_le_length ByteClass.isTrivia (before classes start)
      have stops {cls : ByteClass} (isNext : (before classes
          (start - runLength ByteClass.isTrivia (before classes start))).head? = some cls) :
          cls.isTrivia = false := by
        rw [← Nat.min_eq_left within, ← drop_before, Nat.min_eq_left within] at isNext
        exact unwanted_after_run isNext
      rw [drop_before, Nat.min_eq_left within] at chain
      rw [length_before, Nat.min_eq_left within] at gapBound
      rw [chainBackward, skipTriviaBackward_eq, SchemeLayout.skipTriviaBackward,
        Nat.min_eq_left within]
      generalize runLength ByteClass.isTrivia (before classes start) = gap at *
      simp only [bind, Except.bind]
      cases isMarkEnd : start - gap with
      | zero =>
          have nothing : markLength (before classes 0) = 0 := by rw [before_eq]; rfl
          rw [isMarkEnd, nothing, if_pos rfl] at chain
          rw [chain]
          rfl
      | succ mark =>
          have found := List.getElem?_eq_getElem (show mark < classes.length by omega)
          generalize classes[mark] = cls at found
          have split := before_of_getElem? found
          rw [isMarkEnd, split] at chain stops
          simp only [Nat.add_one_ne_zero, if_false, decrement, classAt_of_getElem? found]
          by_cases isMark : cls = .prefixMark
          · subst isMark
            have marks := markLength_eq_add (before classes mark)
            have marksBound := runLength_le_length (· == .prefixMark) (before classes mark)
            rw [drop_before, Nat.min_eq_left (by omega)] at marks
            rw [length_before, Nat.min_eq_left (by omega)] at marksBound
            rw [markLength] at chain
            rw [if_neg (by simp), passBackward_eq _ (by omega)]
            simp only
            rw [if_pos (by omega), inductionHypothesis _ (by omega) (by omega)]
            rw [if_neg (by omega)] at chain
            exact congrArg Except.ok (by omega)
          · have notLead : cls.isLead = false := by
              rw [Bool.eq_false_iff, ne_eq, ByteClass.isLead_iff, stops rfl]
              simp [isMark]
            rw [markLength_cons_of_not_isLead notLead, if_pos rfl] at chain
            rw [if_pos (by simpa using isMark), chain]
            rfl

/-! ## Forms -/

/-- The form read forward, by the positions of its parts. -/
theorem formForward_eq_of_positions (classes : List ByteClass) (pos : Nat) :
    let start := SchemeLayout.skipTriviaForward classes pos
    let body := start + runLength ByteClass.isLead (classes.drop start)
    SchemeLayout.formForward classes pos =
      match classes[body]? with
      | none | some .closing =>
          if body = start then none
          else some ⟨start, start, start + markLength (classes.drop start), .danglingPrefix⟩
      | some _ => some ⟨start, body, body + (SchemeLayout.bodyForward (classes.drop body)).1,
          (SchemeLayout.bodyForward (classes.drop body)).2⟩ := by
  intro start body
  have isRest : (classes.drop pos).drop (runLength ByteClass.isTrivia (classes.drop pos)) =
      classes.drop start := by
    rw [← drop_min classes pos, List.drop_drop, drop_min]
    rfl
  have sameBody : body = start ↔ runLength ByteClass.isLead (classes.drop start) = 0 := by omega
  have isStart : min pos classes.length + runLength ByteClass.isTrivia (classes.drop pos) =
    start := rfl
  have isBody : start + runLength ByteClass.isLead (classes.drop start) = body := rfl
  simp only [SchemeLayout.formForward, readForward, isRest, List.drop_drop, List.head?_drop,
    isBody, sameBody]
  cases classes[body]? with
  | none =>
      simp only
      split <;> simp [Reading.formAfter, isStart]
  | some first =>
      cases first with
      | closing =>
          simp only
          split <;> simp [Reading.formAfter, isStart]
      | opening | space | comment | prefixMark | stringOpen | stringRest | atom =>
          simp [Reading.formAfter, isStart, isBody]

theorem shape_bodyBackward (classes : List ByteClass) :
    (SchemeLayout.bodyBackward classes).2 ≠ .danglingPrefix := by
  unfold SchemeLayout.bodyBackward
  split
  · simp
  · simp
  · simp only
    split <;> simp
  · simp

/-- The form read backward, by the positions of its parts. -/
theorem formBackward_eq_of_positions (classes : List ByteClass) (pos : Nat) :
    let stop := SchemeLayout.skipTriviaBackward classes pos
    let start := stop - markLength (before classes stop)
    let body := stop - (SchemeLayout.bodyBackward (before classes stop)).1
    SchemeLayout.formBackward classes pos =
      match (before classes stop).head? with
      | none | some .opening | some .space | some .comment => none
      | some .prefixMark => some ⟨start, start, stop, .danglingPrefix⟩
      | some _ => some ⟨body - markLength (before classes body), body, stop,
          (SchemeLayout.bodyBackward (before classes stop)).2⟩ := by
  intro stop start body
  have isRest : (before classes pos).drop (runLength ByteClass.isTrivia (before classes pos)) =
      before classes stop := drop_before classes pos _
  have isStop : min pos classes.length - runLength ByteClass.isTrivia (before classes pos) =
    stop := rfl
  have within : stop ≤ classes.length :=
    Nat.le_trans (skipTriviaBackward_le classes pos) (Nat.min_le_right _ _)
  simp only [SchemeLayout.formBackward, readBackward, isRest]
  cases (before classes stop).head? with
  | none => rfl
  | some last =>
      cases last with
      | opening | space | comment => rfl
      | prefixMark => simp [Reading.formBefore, isStop, start]
      | closing | stringOpen | stringRest | atom =>
          simp [Reading.formBefore, isStop, body, drop_before, Nat.min_eq_left within]

section Table

variable (inLimit : classes.length ≤ maxLength)

include inLimit

theorem bodyForward_eq {body : Nat} (found : classes[body]? = some cls) :
    bodyForward classes body =
      .ok (body + (SchemeLayout.bodyForward (classes.drop body)).1,
        (SchemeLayout.bodyForward (classes.drop body)).2) := by
  have inside := (List.getElem?_eq_some_iff.mp found).1
  have split := drop_of_getElem? found
  simp only [bodyForward, classAt_of_getElem? found, closeForward_eq inLimit,
    passForward_eq _ inside, passForward_eq _ (Nat.le_of_lt inside), bind, Except.bind]
  cases cls with
  | opening =>
      rw [split]
      simp only [SchemeLayout.bodyForward, SchemeLayout.closeForward]
      cases closeWithin 0 (classes.drop (body + 1)) with
      | none =>
          simp only [Option.map_none, Option.getD_none, List.length_drop, pure, Except.pure]
          rw [show body + (classes.length - (body + 1) + 1) = classes.length by omega]
      | some count =>
          simp only [Option.map_some, Option.getD_some, pure, Except.pure]
          rw [show body + (count + 1) = body + 1 + count by omega]
  | stringOpen =>
      rw [split]
      simp only [SchemeLayout.bodyForward, pure, Except.pure]
      rw [Nat.succ_add_eq_add_succ]
  | stringRest =>
      rw [split, runLength_cons_pos rfl]
      rfl
  | atom | space | comment | prefixMark | closing =>
      rw [split]
      rfl

theorem formForward_eq (pos : Nat) :
    formForward classes pos = .ok (SchemeLayout.formForward classes pos) := by
  have within := skipTriviaForward_le_length classes pos
  rw [formForward, skipTriviaForward_eq, formForward_eq_of_positions]
  generalize SchemeLayout.skipTriviaForward classes pos = start at *
  simp only [bind, Except.bind]
  by_cases inside : start < classes.length
  · have found := List.getElem?_eq_getElem inside
    generalize classes[start] = cls at found
    have split := drop_of_getElem? found
    rw [if_neg (by omega), classAt_of_getElem? found]
    by_cases isClosing : cls = .closing
    · subst isClosing
      rw [split, runLength_cons_neg rfl, Nat.add_zero, found]
      simp [pure, Except.pure]
    · obtain ⟨marks, next, step⟩ := exists_passesMarks within
      have chained := chainForward_eq marks step.within step.stops
      rw [← step.leads, ← step.ends] at chained
      have bound := add_runLength_le ByteClass.isLead within
      simp only [beq_iff_eq, isClosing, if_false, step.passed, chained]
      generalize isBody : start + runLength ByteClass.isLead (classes.drop start) = body at *
      by_cases atEnd : body = classes.length
      · rw [if_pos atEnd, List.getElem?_eq_none (by omega)]
        simp only
        rw [if_neg (by omega)]
        rfl
      · rw [if_neg atEnd]
        have foundBody := List.getElem?_eq_getElem (show body < classes.length by omega)
        generalize classes[body] = first at foundBody
        simp only [classAt_of_getElem? foundBody, foundBody]
        by_cases isEnd : first = .closing
        · subst isEnd
          have further : body ≠ start := by
            rintro rfl
            rw [foundBody] at found
            exact isClosing (Option.some.inj found).symm
          simp only [if_true, if_neg further]
          rfl
        · rw [if_neg isEnd, bodyForward_eq inLimit foundBody]
          cases first <;> first | contradiction | rfl
  · have beyond : classes.length ≤ start := Nat.le_of_not_lt inside
    rw [if_pos beyond, List.drop_of_length_le beyond, runLength, Nat.add_zero,
      List.getElem?_eq_none beyond]
    simp only [if_true]
    rfl

theorem bodyBackward_eq {last : Nat} (found : classes[last]? = some cls)
    (significant : cls ≠ .opening ∧ cls.isLead = false) :
    bodyBackward classes last =
      .ok (some (last + 1 - (SchemeLayout.bodyBackward (before classes (last + 1))).1,
        (SchemeLayout.bodyBackward (before classes (last + 1))).2)) := by
  have inside := (List.getElem?_eq_some_iff.mp found).1
  have split := before_of_getElem? found
  simp only [bodyBackward, classAt_of_getElem? found, bind, Except.bind]
  cases cls with
  | opening => exact absurd rfl significant.1
  | space | comment | prefixMark => exact absurd significant.2 (by decide)
  | closing =>
      simp only [openBackward_eq inLimit, split, SchemeLayout.bodyBackward,
        SchemeLayout.openBackward, length_before, Nat.min_eq_left (Nat.le_of_lt inside)]
      cases openWithin 0 (before classes last) with
      | none => simp [pure, Except.pure]
      | some count => simp [pure, Except.pure]
  | stringOpen =>
      rw [split]
      rfl
  | stringRest =>
      have bound := runLength_le_length (· == .stringRest) (before classes last)
      rw [length_before, Nat.min_eq_left (Nat.le_of_lt inside)] at bound
      simp only [passBackward_eq _ (Nat.le_of_lt inside), split, SchemeLayout.bodyBackward,
        drop_before, Nat.min_eq_left (Nat.le_of_lt inside)]
      generalize runLength (· == .stringRest) (before classes last) = count at *
      cases isStart : last - count with
      | zero =>
          rw [if_pos rfl, if_neg (by rw [before_eq]; simp)]
          simp only [Nat.add_sub_add_right, isStart]
          rfl
      | succ front =>
          have foundFront := List.getElem?_eq_getElem (show front < classes.length by omega)
          generalize classes[front] = first at foundFront
          rw [if_neg (Nat.add_one_ne_zero _), before_of_getElem? foundFront]
          simp only [decrement, classAt_of_getElem? foundFront, List.head?_cons,
            Option.some.injEq, beq_iff_eq]
          split
          · simp only [show last + 1 - (count + 2) = front by omega]
            rfl
          · simp only [show last + 1 - (count + 1) = front + 1 by omega]
            rfl
  | atom =>
      simp only [passBackward_eq _ (Nat.le_of_lt inside), split, SchemeLayout.bodyBackward,
        runLength_atom_cons, Nat.add_sub_add_right]
      rfl

theorem formBackward_eq (pos : Nat) :
    formBackward classes pos = .ok (SchemeLayout.formBackward classes pos) := by
  have within : SchemeLayout.skipTriviaBackward classes pos ≤ classes.length :=
    Nat.le_trans (skipTriviaBackward_le classes pos) (Nat.min_le_right _ _)
  rw [formBackward, skipTriviaBackward_eq, formBackward_eq_of_positions]
  generalize SchemeLayout.skipTriviaBackward classes pos = stop at *
  simp only [bind, Except.bind]
  cases stop with
  | zero =>
      rw [before_eq]
      rfl
  | succ last =>
      have found := List.getElem?_eq_getElem within
      generalize classes[last] = cls at found
      have split := before_of_getElem? found
      rw [if_neg (Nat.add_one_ne_zero last)]
      have isBody := bodyBackward_eq inLimit found
      simp only [decrement, split, List.head?_cons] at isBody ⊢
      cases cls with
      | opening | space | comment =>
          simp only [bodyBackward, classAt_of_getElem? found]
          rfl
      | prefixMark =>
          have marks := markLength_eq_add (before classes last)
          rw [drop_before, Nat.min_eq_left (Nat.le_of_lt within)] at marks
          simp only [bodyBackward, classAt_of_getElem? found, bind, Except.bind, pure, Except.pure,
            passBackward_eq _ (Nat.le_of_lt within)]
          rw [chainBackward_eq (by omega), markLength, Nat.add_sub_add_right, marks, Nat.sub_sub]
      | closing | stringOpen | stringRest | atom =>
          have isShape := shape_bodyBackward (before classes (last + 1))
          rw [split] at isShape
          simp only [isBody ⟨by decide, rfl⟩]
          generalize SchemeLayout.bodyBackward _ = parts at *
          obtain ⟨length, shape⟩ := parts
          cases shape with
          | danglingPrefix => contradiction
          | list | string | atom =>
              simp only
              rw [chainBackward_eq (by omega)]
              rfl

end Table

/-! ## Moves -/

variable {source : Source}

theorem slice_eq (source : Source) (start stop : Nat) :
    slice source start stop = .ok (source.slice start stop) := by
  have inBuffer := length_lt_paddedLength source.bytes
  have length : source.bytes.length = source.length := rfl
  rw [slice, if_pos ⟨Nat.min_le_right _ _, by omega⟩, Source.slice, Source.range_clamp]
  rfl

theorem spanOf_eq (source : Source) (form : Form) :
    spanOf source form = .ok (source.spanOf form) := by
  rw [spanOf, Source.spanOf]
  cases form.shape with
  | list => rfl
  | string => rfl
  | danglingPrefix => rfl
  | atom =>
      simp only [slice_eq, bind, Except.bind]
      split <;> rfl

/-- What a move locates with every access checked is what it locates, without a fault. -/
theorem locate_eq (inLimit : source.length ≤ maxLength) (offset : Nat) (direction : Move) :
    locate source offset direction = .ok (Navigator.locate source offset direction) := by
  rw [← source.length_classes] at inLimit
  cases direction with
  | forward =>
      simp only [locate, Navigator.locate, Source.formAfter?, formForward_eq inLimit, spanOf_eq,
        bind, Except.bind]
      cases SchemeLayout.formForward source.classes offset <;> rfl
  | backward =>
      simp only [locate, Navigator.locate, Source.formBefore?, formBackward_eq inLimit, spanOf_eq,
        bind, Except.bind]
      cases SchemeLayout.formBackward source.classes offset <;> rfl
  | up =>
      simp only [locate, Navigator.locate, Source.enclosing?, openBackward_eq inLimit,
        closeForward_eq inLimit, source.length_classes, bind, Except.bind]
      cases SchemeLayout.openBackward source.classes offset 0 <;> rfl
  | down =>
      simp only [locate, Navigator.locate, Source.interior?, formForward_eq inLimit,
        closeForward_eq inLimit, spanOf_eq, source.length_classes, bind, Except.bind]
      cases SchemeLayout.formForward source.classes offset with
      | none => rfl
      | some form =>
          simp only
          split
          · cases closed : SchemeLayout.closeForward source.classes (form.body + 1) 0 with
            | none => rfl
            | some stop =>
                have bounds := closeForward_bounds closed
                obtain ⟨last, rfl⟩ := Nat.exists_eq_add_of_lt bounds.1
                rfl
          · rfl

end Checked

namespace Navigator

/-- A move over a text within the limit makes no fault. -/
theorem moveChecked_eq {navigator : Navigator} (inLimit : navigator.source.length ≤ maxLength)
    (direction : Move) (offset : Nat) :
    navigator.moveChecked direction offset = .ok (navigator.move direction offset) := by
  rw [moveChecked, Checked.locate_eq inLimit]
  rfl

end Navigator

end SchemeLayout
