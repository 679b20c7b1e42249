import SchemeLayout.Form.Sibling
import SchemeLayout.Proofs.Walk

/-!
The forms of one list, from either side.

Balanced classes hold complete forms only.  Reading them backward gives the forms
that reading them forward gives, in reverse (`formsBehind_append`), whatever
stands in front of them; and reading forward goes through them as if nothing came
after, as long as no form reaches over their end (`formsAhead_append`).
-/

set_option autoImplicit false

namespace SchemeLayout

/-! ## Trivia in front of a form -/

theorem readForward_trivia_append {gap : List ByteClass} (trivia : AllTrivia gap)
    (classes : List ByteClass) :
    readForward (gap ++ classes) =
      (readForward classes).map fun reading => { reading with gap := gap.length + reading.gap } := by
  simp only [readForward, runLength_append trivia, ← List.drop_drop, List.drop_left]
  split
  · split <;> simp [*]
  · split <;> simp [*]
  · simp [*]

theorem readBackward_trivia_append {gap : List ByteClass} (trivia : AllTrivia gap)
    (classes : List ByteClass) :
    readBackward (gap ++ classes) =
      (readBackward classes).map fun reading => { reading with gap := gap.length + reading.gap } := by
  simp only [readBackward, runLength_append trivia, ← List.drop_drop, List.drop_left]
  split <;> simp [*]

section Unfolding

variable {classes : List ByteClass} {reading : Reading}

theorem formsAhead_of_none (pos : Nat) (missing : readForward classes = none) :
    formsAhead pos classes = [] := by
  rw [formsAhead]
  split
  next => rfl
  next found => simp [missing] at found

theorem formsAhead_of_some (pos : Nat) (found : readForward classes = some reading) :
    formsAhead pos classes =
      reading.formAfter pos :: formsAhead (pos + reading.size) (classes.drop reading.size) := by
  rw [formsAhead]
  split
  next missing => simp [missing] at found
  next other same =>
    rw [found, Option.some.injEq] at same
    subst same
    rfl

theorem formsBehind_of_none (pos : Nat) (missing : readBackward classes = none) :
    formsBehind pos classes = [] := by
  rw [formsBehind]
  split
  next => rfl
  next found => simp [missing] at found

theorem formsBehind_of_some (pos : Nat) (found : readBackward classes = some reading) :
    formsBehind pos classes =
      reading.formBefore pos :: formsBehind (pos - reading.size) (classes.drop reading.size) := by
  rw [formsBehind]
  split
  next missing => simp [missing] at found
  next other same =>
    rw [found, Option.some.injEq] at same
    subst same
    rfl

theorem formsAhead_trivia_append {gap : List ByteClass} (trivia : AllTrivia gap) (pos : Nat)
    (classes : List ByteClass) :
    formsAhead pos (gap ++ classes) = formsAhead (pos + gap.length) classes := by
  have shifted := readForward_trivia_append trivia classes
  cases found : readForward classes with
  | none =>
      rw [found] at shifted
      rw [formsAhead_of_none _ shifted, formsAhead_of_none _ found]
  | some reading =>
      rw [found] at shifted
      rw [formsAhead_of_some _ shifted, formsAhead_of_some _ found]
      simp only [Reading.formAfter, Reading.size, Nat.add_assoc, List.drop_length_add_append]

theorem formsBehind_trivia_append {gap : List ByteClass} (trivia : AllTrivia gap) (pos : Nat)
    (classes : List ByteClass) :
    formsBehind (pos + gap.length) (gap ++ classes) = formsBehind pos classes := by
  have shifted := readBackward_trivia_append trivia classes
  cases found : readBackward classes with
  | none =>
      rw [found] at shifted
      rw [formsBehind_of_none _ shifted, formsBehind_of_none _ found]
  | some reading =>
      rw [found] at shifted
      rw [formsBehind_of_some _ shifted, formsBehind_of_some _ found]
      have stop : pos + gap.length - (gap.length + reading.gap) = pos - reading.gap := by omega
      have start : pos + gap.length - (gap.length + (reading.gap + (reading.lead + reading.body))) =
          pos - (reading.gap + (reading.lead + reading.body)) := by omega
      simp only [Reading.formBefore, Reading.size, Nat.add_assoc, stop, start,
        List.drop_length_add_append]

end Unfolding

namespace ReadsForward

variable {front rest : List ByteClass} {reading : Reading}

theorem allTrivia_gap (reads : ReadsForward rest reading) : AllTrivia (rest.take reading.gap) := by
  cases reads with
  | datum trivia | unclosed trivia | dangling trivia =>
      rw [List.take_left]
      exact trivia

theorem closed_of_balanced (reads : ReadsForward rest reading) (balanced : Balanced rest)
    (isList : reading.shape = .list) :
    closeWithin 0 (rest.drop (reading.gap + reading.lead + 1)) ≠ none := by
  obtain ⟨before, inner, rfl, length⟩ := reads.opening_of_list isList
  have inside : (before ++ .opening :: inner).drop (reading.gap + reading.lead + 1) = inner := by
    rw [← length, ← List.drop_drop, List.drop_left]
    rfl
  rw [inside]
  exact balanced.closeWithin_ne_none

/-- A form is balanced together with the trivia in front of it, unless it is a list that
is never closed and takes all that is left. -/
theorem balanced_or_unclosed (reads : ReadsForward rest reading) :
    Balanced (rest.take reading.size) ∨
      ∃ front inner, rest = front ++ .opening :: inner ∧ Balanced front ∧
        closeWithin 0 inner = none ∧ reading.shape = .list ∧
        front.length = reading.gap + reading.lead ∧ reading.size = rest.length := by
  cases reads with
  | @datum gap lead body after shape trivia marks datum apart =>
      left
      rw [Reading.size, take_parts]
      exact (Balanced.of_isLead trivia.isLead).append
        ((Balanced.of_isLead marks.isLead).append datum.balanced)
  | @unclosed gap lead inner trivia marks unclosed =>
      right
      refine ⟨gap ++ lead, inner, by simp, ?_, unclosed, rfl, by simp, ?_⟩
      · exact (Balanced.of_isLead trivia.isLead).append (Balanced.of_isLead marks.isLead)
      · simp only [Reading.size, List.length_append, List.length_cons]
        omega
  | @dangling gap marks after trivia isMarks last atEnd =>
      left
      have passed := take_parts gap [] marks after
      rw [Reading.size]
      exact passed.symm ▸ (Balanced.of_isLead trivia.isLead).append
        (Balanced.of_isLead isMarks.isLead)

theorem balanced_take (reads : ReadsForward rest reading) (balanced : Balanced rest) :
    Balanced (rest.take reading.size) := by
  rcases reads.balanced_or_unclosed with passed | ⟨front, inner, rfl, _, unclosed, _⟩
  · exact passed
  · exact absurd unclosed balanced.closeWithin_ne_none

theorem balanced_drop (reads : ReadsForward rest reading) (balanced : Balanced rest) :
    Balanced (rest.drop reading.size) := by
  have whole := balanced
  rw [← List.take_append_drop reading.size rest] at whole
  exact whole.of_append (reads.balanced_take balanced)

/-- A form in balanced classes is read in the same way when more classes follow,
unless it reaches over to them. -/
theorem append_right {later : List ByteClass} (reads : ReadsForward rest reading)
    (balanced : Balanced rest) (unmarked : Unmarked rest)
    (apart : joined rest.getLast? later.head? = false) :
    ReadsForward (rest ++ later) reading := by
  have closed := reads.closed_of_balanced balanced
  cases reads with
  | @datum gap lead body after shape trivia marks datum datumApart =>
      simp only [List.append_assoc]
      refine .datum trivia marks datum ?_
      cases after with
      | nil =>
          obtain ⟨inside, cls, rfl, _, _⟩ := datum.exists_concat
          simpa [← List.append_assoc] using apart
      | cons cls after => exact datumApart
  | @unclosed gap lead inner trivia marks unclosed =>
      refine absurd ?_ (closed rfl)
      rw [← List.append_assoc, ← List.drop_drop, List.drop_left' (by simp)]
      exact unclosed
  | @dangling gap marks after trivia isMarks last atEnd =>
      -- In balanced classes only trivia follow the marks, so the marks are still waiting.
      have lead : Balanced (gap ++ marks) :=
        (Balanced.of_isLead trivia.isLead).append (Balanced.of_isLead isMarks.isLead)
      rw [← List.append_assoc] at balanced
      have blank := atEnd.allTrivia (balanced.of_append lead)
      obtain ⟨before, rfl⟩ := List.getLast?_eq_some_iff.mp last
      rw [Unmarked, List.reverse_append, List.reverse_append, List.append_assoc,
        markLength_trivia_append blank.reverse, List.reverse_concat] at unmarked
      exact absurd unmarked (Nat.ne_of_gt (markLength_cons_pos _))

end ReadsForward

/-! ## Enumerations -/

/-- Reading backward over one form, and on from its start. -/
theorem formsBehind_form {front rest : List ByteClass} {reading : Reading}
    (reads : ReadsForward rest reading) (fresh : Fresh front rest)
    (closed : reading.shape = .list →
      closeWithin 0 (rest.drop (reading.gap + reading.lead + 1)) ≠ none) (pos : Nat) :
    formsBehind (pos + reading.size) (front ++ rest.take reading.size).reverse =
      reading.formAfter pos :: formsBehind pos front.reverse := by
  have bounds := (readForward_bounds (readForward_eq_some_iff.mpr reads)).2
  have back := readBackward_reverse_eq_some_iff.mpr (reads.readsBackward fresh closed)
  have gapPassed := formsBehind_trivia_append reads.allTrivia_gap.reverse pos front.reverse
  have left : (front ++ rest.take reading.size).reverse.drop (0 + reading.lead + reading.body) =
      (rest.take reading.gap).reverse ++ front.reverse := by
    have kept : front.length + reading.size - (0 + reading.lead + reading.body) =
        front.length + reading.gap := by
      simp only [Reading.size]
      omega
    rw [← List.reverse_append, List.drop_reverse, List.length_append, List.length_take,
      Nat.min_eq_left bounds, kept, List.take_length_add_append, List.take_take,
      Nat.min_eq_left (by simp only [Reading.size]; omega)]
  have start : pos + reading.size - (0 + reading.lead + reading.body) =
      pos + (rest.take reading.gap).reverse.length := by
    simp only [Reading.size, List.length_reverse, List.length_take] at *
    omega
  rw [formsBehind_of_some _ back]
  simp only [Reading.size] at left start gapPassed ⊢
  rw [left, start, gapPassed]
  simp only [Reading.formBefore, Reading.formAfter, List.cons.injEq, Form.mk.injEq, and_true]
  omega

/-- Reading backward over balanced classes gives their forms in reverse, and goes on
with what stands in front of them. -/
theorem formsBehind_append {classes : List ByteClass} (balanced : Balanced classes)
    (front : List ByteClass) (fresh : Fresh front classes) (pos : Nat) :
    formsBehind (pos + classes.length) (front ++ classes).reverse =
      (formsAhead pos classes).reverse ++ formsBehind pos front.reverse := by
  -- The induction reads forward; what has been read moves over to the front.
  fun_induction formsAhead pos classes generalizing front with
  | case1 pos classes missing =>
      have trivia := (readForward_eq_none_iff.mp missing).allTrivia balanced
      have passed := formsBehind_trivia_append trivia.reverse pos front.reverse
      rw [List.length_reverse] at passed
      rw [List.reverse_append, passed]
      rfl
  | case2 pos classes reading found inductionHypothesis =>
      have reads := readForward_eq_some_iff.mp found
      have bounds := readForward_bounds found
      have rest := inductionHypothesis (reads.balanced_drop balanced)
        (front ++ classes.take reading.size) reads.fresh
      rw [List.length_drop, List.append_assoc, List.take_append_drop,
        show pos + reading.size + (classes.length - reading.size) = pos + classes.length by omega]
        at rest
      rw [rest, List.reverse_cons, List.append_assoc,
        formsBehind_form reads fresh (reads.closed_of_balanced balanced)]
      rfl

/-- Reading forward passes over balanced classes that no form reaches out of. -/
theorem formsAhead_append {classes later : List ByteClass} (balanced : Balanced classes)
    (unmarked : Unmarked classes) (apart : joined classes.getLast? later.head? = false)
    (pos : Nat) :
    formsAhead pos (classes ++ later) =
      formsAhead pos classes ++ formsAhead (pos + classes.length) later := by
  fun_induction formsAhead pos classes with
  | case1 pos classes missing =>
      have trivia := (readForward_eq_none_iff.mp missing).allTrivia balanced
      rw [formsAhead_trivia_append trivia]
      rfl
  | case2 pos classes reading found inductionHypothesis =>
      have reads := readForward_eq_some_iff.mp found
      have bounds := readForward_bounds found
      have whole := readForward_eq_some_iff.mpr (reads.append_right balanced unmarked apart)
      have restUnmarked : Unmarked (classes.drop reading.size) := by
        rw [← List.take_append_drop reading.size classes, Unmarked, List.reverse_append] at unmarked
        exact markLength_of_append unmarked
      have restApart : joined (classes.drop reading.size).getLast? later.head? = false := by
        rw [List.getLast?_drop]
        split
        · rfl
        · exact apart
      rw [formsAhead_of_some pos whole, List.drop_append_of_le_length bounds.2,
        inductionHypothesis (reads.balanced_drop balanced) restUnmarked restApart, List.length_drop,
        show pos + reading.size + (classes.length - reading.size) = pos + classes.length by omega]
      rfl

theorem formsAhead_bounds {pos : Nat} {classes : List ByteClass} {form : Form}
    (member : form ∈ formsAhead pos classes) :
    pos ≤ form.start ∧ form.start < form.stop ∧ form.stop ≤ pos + classes.length := by
  fun_induction formsAhead pos classes with
  | case1 => contradiction
  | case2 pos classes reading found inductionHypothesis =>
      have bounds := readForward_bounds found
      simp only [Reading.size] at bounds
      rcases List.mem_cons.mp member with rfl | later
      · simp only [Reading.formAfter]
        omega
      · have restBounds := inductionHypothesis later
        simp only [Reading.size, List.length_drop] at restBounds
        omega

theorem pairwise_formsAhead (pos : Nat) (classes : List ByteClass) :
    (formsAhead pos classes).Pairwise fun first second => first.stop ≤ second.start := by
  fun_induction formsAhead pos classes with
  | case1 => exact .nil
  | case2 pos classes reading found inductionHypothesis =>
      refine List.pairwise_cons.mpr ⟨fun form later => ?_, inductionHypothesis⟩
      rw [Reading.stop_formAfter]
      exact (formsAhead_bounds later).1

theorem pairwise_start_formsAhead (pos : Nat) (classes : List ByteClass) :
    (formsAhead pos classes).Pairwise fun first second => first.start < second.start := by
  refine (pairwise_formsAhead pos classes).imp_of_mem ?_
  intro first second member _ apart
  exact Nat.lt_of_lt_of_le (formsAhead_bounds member).2.1 apart

theorem balanced_take_start {pos : Nat} {classes : List ByteClass} (balanced : Balanced classes)
    {form : Form} (member : form ∈ formsAhead pos classes) :
    Balanced (classes.take (form.start - pos)) := by
  fun_induction formsAhead pos classes with
  | case1 => contradiction
  | case2 pos classes reading found inductionHypothesis =>
      have reads := readForward_eq_some_iff.mp found
      rcases List.mem_cons.mp member with rfl | later
      · rw [show (reading.formAfter pos).start - pos = reading.gap by
          simp only [Reading.formAfter]; omega]
        exact .of_isLead reads.allTrivia_gap.isLead
      · have bounds := formsAhead_bounds later
        have restBalanced := inductionHypothesis (reads.balanced_drop balanced) later
        rw [show form.start - pos = reading.size + (form.start - (pos + reading.size)) by omega,
          List.take_add]
        exact (reads.balanced_take balanced).append restBalanced

end SchemeLayout
