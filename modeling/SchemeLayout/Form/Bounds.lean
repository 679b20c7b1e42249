import SchemeLayout.Form.Reading

/-!
How far a reading reaches.

A form that is read is not empty, and it lies within the classes it is read
from, so repeated reading comes to an end.
-/

set_option autoImplicit false

namespace SchemeLayout

variable {wanted : ByteClass → Bool} {classes : List ByteClass}

theorem runLength_eq (wanted : ByteClass → Bool) (classes : List ByteClass) :
    runLength wanted classes = (classes.takeWhile wanted).length := by
  induction classes with
  | nil => rfl
  | cons cls rest inductionHypothesis =>
      cases isWanted : wanted cls <;> simp [runLength, isWanted, inductionHypothesis]

theorem runLength_le_length (wanted : ByteClass → Bool) (classes : List ByteClass) :
    runLength wanted classes ≤ classes.length := by
  rw [runLength_eq]
  exact (List.takeWhile_prefix wanted).length_le

theorem runLength_cons_pos {cls : ByteClass} (isWanted : wanted cls = true)
    (rest : List ByteClass) :
    runLength wanted (cls :: rest) = runLength wanted rest + 1 := by
  simp [runLength, isWanted]

theorem runLength_cons_neg {cls : ByteClass} (unwanted : wanted cls = false)
    (rest : List ByteClass) : runLength wanted (cls :: rest) = 0 := by
  simp [runLength, unwanted]

theorem runLength_atom_cons (rest : List ByteClass) :
    runLength (· == .atom) (.atom :: rest) = runLength (· == .atom) rest + 1 :=
  runLength_cons_pos rfl rest

theorem unwanted_after_run {cls : ByteClass}
    (found : (classes.drop (runLength wanted classes)).head? = some cls) :
    wanted cls = false := by
  induction classes with
  | nil => simp [runLength] at found
  | cons first rest inductionHypothesis =>
      cases isWanted : wanted first with
      | true =>
          rw [runLength_cons_pos isWanted, List.drop_succ_cons] at found
          exact inductionHypothesis found
      | false =>
          rw [runLength_cons_neg isWanted, List.drop_zero, List.head?_cons] at found
          cases found
          exact isWanted

theorem markLength_le (classes : List ByteClass) :
    markLength classes ≤ runLength ByteClass.isLead classes := by
  fun_induction markLength classes with
  | case1 => exact Nat.zero_le _
  | case2 rest inductionHypothesis =>
      rw [runLength_cons_pos rfl]
      exact Nat.succ_le_succ inductionHypothesis
  | case3 => exact Nat.zero_le _
  | case4 cls rest _ isTrivia count marked inductionHypothesis =>
      rw [runLength_cons_pos ((ByteClass.isLead_iff cls).mpr (.inr isTrivia))]
      omega
  | case5 => exact Nat.zero_le _

theorem markLength_cons_pos (rest : List ByteClass) : 0 < markLength (.prefixMark :: rest) :=
  Nat.succ_pos _

theorem bodyForward_bounds {cls : ByteClass} (rest : List ByteClass)
    (notClosing : cls ≠ .closing) (notLead : cls.isLead = false) :
    0 < (bodyForward (cls :: rest)).1 ∧ (bodyForward (cls :: rest)).1 ≤ rest.length + 1 := by
  cases cls with
  | space | comment | prefixMark => contradiction
  | closing => exact absurd rfl notClosing
  | opening =>
      simp only [bodyForward]
      cases matched : closeWithin 0 rest with
      | none => simp
      | some count =>
          have bounds := closeWithin_bounds matched
          simp only [Option.getD_some]
          omega
  | stringOpen | stringRest =>
      have bound := runLength_le_length (· == .stringRest) rest
      simp only [bodyForward]
      omega
  | atom =>
      have bound := runLength_le_length (· == .atom) rest
      simp only [bodyForward, runLength_atom_cons]
      omega

theorem bodyBackward_bounds {cls : ByteClass} (rest : List ByteClass)
    (significant : cls ≠ .opening ∧ cls.isLead = false) :
    0 < (bodyBackward (cls :: rest)).1 ∧ (bodyBackward (cls :: rest)).1 ≤ rest.length + 1 := by
  cases cls with
  | space | comment | prefixMark => exact absurd significant.2 (by decide)
  | opening => exact absurd rfl significant.1
  | closing =>
      simp only [bodyBackward]
      cases matched : openWithin 0 rest with
      | none => simp
      | some count =>
          have bounds := openWithin_bounds matched
          simp only [Option.getD_some]
          omega
  | stringOpen => simp [bodyBackward]
  | stringRest =>
      have bound := runLength_le_length (· == .stringRest) rest
      simp only [bodyBackward]
      split
      next opened =>
        have more : 0 < (rest.drop (runLength (· == .stringRest) rest)).length := by
          refine List.length_pos_iff.mpr fun nothingLeft => ?_
          rw [nothingLeft] at opened
          contradiction
        rw [List.length_drop] at more
        omega
      next => omega
  | atom =>
      have bound := runLength_le_length (· == .atom) rest
      simp only [bodyBackward, runLength_atom_cons]
      omega

theorem readForward_bounds {reading : Reading} (found : readForward classes = some reading) :
    0 < reading.body ∧ reading.size ≤ classes.length := by
  have gapBound := runLength_le_length ByteClass.isTrivia classes
  have leadBound := runLength_le_length ByteClass.isLead
    (classes.drop (runLength ByteClass.isTrivia classes))
  rw [List.length_drop] at leadBound
  have dangling {result : Reading}
      (marked : runLength ByteClass.isLead
        (classes.drop (runLength ByteClass.isTrivia classes)) ≠ 0)
      (same : some (Reading.mk (runLength ByteClass.isTrivia classes) 0
        (markLength (classes.drop (runLength ByteClass.isTrivia classes))) .danglingPrefix) =
          some result) :
      0 < result.body ∧ result.size ≤ classes.length := by
    cases same
    have bound := markLength_le (classes.drop (runLength ByteClass.isTrivia classes))
    refine ⟨?_, by simp only [Reading.size]; omega⟩
    cases rest : classes.drop (runLength ByteClass.isTrivia classes) with
    | nil =>
        rw [rest] at marked
        exact absurd rfl marked
    | cons cls tail =>
        have notTrivia : cls.isTrivia = false := unwanted_after_run (by rw [rest]; rfl)
        cases isLead : cls.isLead with
        | false =>
            rw [rest, runLength_cons_neg isLead] at marked
            contradiction
        | true =>
            rcases (ByteClass.isLead_iff cls).mp isLead with rfl | isTrivia
            · exact markLength_cons_pos tail
            · rw [isTrivia] at notTrivia
              contradiction
  simp only [readForward] at found
  split at found
  · split at found
    · contradiction
    · exact dangling (by assumption) found
  · split at found
    · contradiction
    · exact dangling (by assumption) found
  next cls notClosing first =>
    have notLead := unwanted_after_run first
    obtain ⟨tail, split⟩ := List.head?_eq_some_iff.mp first
    have length := congrArg List.length split
    rw [List.length_drop, List.length_drop, List.length_cons] at length
    rw [split] at found
    have bounds := bodyForward_bounds tail notClosing notLead
    cases found
    refine ⟨bounds.1, ?_⟩
    simp only [Reading.size]
    omega

theorem readBackward_bounds {reading : Reading} (found : readBackward classes = some reading) :
    0 < reading.body ∧ reading.size ≤ classes.length := by
  have gapBound := runLength_le_length ByteClass.isTrivia classes
  simp only [readBackward] at found
  split at found
  · contradiction
  · contradiction
  · contradiction
  · contradiction
  next mark =>
    have bound := markLength_le (classes.drop (runLength ByteClass.isTrivia classes))
    have within := runLength_le_length ByteClass.isLead
      (classes.drop (runLength ByteClass.isTrivia classes))
    rw [List.length_drop] at within
    obtain ⟨tail, split⟩ := List.head?_eq_some_iff.mp mark
    have positive := markLength_cons_pos tail
    rw [← split] at positive
    cases found
    refine ⟨positive, ?_⟩
    simp only [Reading.size]
    omega
  next cls notOpening notSpace notComment notMark first =>
    obtain ⟨tail, split⟩ := List.head?_eq_some_iff.mp first
    have length := congrArg List.length split
    rw [List.length_drop, List.length_cons] at length
    rw [split] at found
    have significant : cls ≠ .opening ∧ cls.isLead = false := by
      refine ⟨notOpening, ?_⟩
      cases cls <;> first | rfl | contradiction
    have bounds := bodyBackward_bounds tail significant
    have marks := markLength_le ((cls :: tail).drop (bodyBackward (cls :: tail)).1)
    have within := runLength_le_length ByteClass.isLead
      ((cls :: tail).drop (bodyBackward (cls :: tail)).1)
    rw [List.length_drop, List.length_cons] at within
    cases found
    refine ⟨bounds.1, ?_⟩
    simp only [Reading.size]
    omega

end SchemeLayout
