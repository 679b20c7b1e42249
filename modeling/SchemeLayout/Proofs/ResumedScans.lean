import SchemeLayout.Proofs.Balanced

/-!
Bracket scans that stop and go on.

What a scan has passed matters for the rest of it through the depth alone: each
bracket that turns the way of the scan adds one to it, each that turns the other
way takes one off.  So a scan can be broken off at any position that it reaches
and be resumed there with the depth counted so far.  A scan at a greater depth
leaves one list after the other, each by a scan at depth zero.
-/

set_option autoImplicit false

namespace SchemeLayout

/-- The classes between two positions, as far as the table reaches. -/
def classesBetween (classes : List ByteClass) (start stop : Nat) : List ByteClass :=
  (classes.drop start).take (stop - start)

@[simp] theorem length_classesBetween (classes : List ByteClass) (start stop : Nat) :
    (classesBetween classes start stop).length = min stop classes.length - start := by
  simp only [classesBetween, List.length_take, List.length_drop]
  omega

theorem classesBetween_append_drop (classes : List ByteClass) {start stop : Nat}
    (ordered : start ≤ stop) :
    classesBetween classes start stop ++ classes.drop stop = classes.drop start := by
  obtain ⟨count, rfl⟩ := Nat.exists_eq_add_of_le ordered
  rw [classesBetween, Nat.add_sub_cancel_left, ← List.drop_drop, List.take_append_drop]

theorem reverse_classesBetween_append_before (classes : List ByteClass) {start stop : Nat}
    (ordered : start ≤ stop) :
    (classesBetween classes start stop).reverse ++ before classes start =
      before classes stop := by
  obtain ⟨count, rfl⟩ := Nat.exists_eq_add_of_le ordered
  rw [classesBetween, Nat.add_sub_cancel_left, before_eq, before_eq, List.take_add,
    List.reverse_append]

/-! ## Over a front -/

/-- A scan returns in the front or goes on behind it, with the depth counted there. -/
theorem closeWithin_append (depth : Nat) (front rest : List ByteClass) :
    closeWithin depth (front ++ rest) =
      (closeWithin depth front).or
        ((closeWithin (depth + front.count .opening - front.count .closing) rest).map
          (front.length + ·)) := by
  induction front generalizing depth with
  | nil => simp [closeWithin]
  | cons cls front inductionHypothesis =>
      -- The count is taken from the first class of the front, the depth from behind it.
      have goesOn {inner outer : Nat} (same : inner = outer) :
          ((closeWithin inner rest).map (front.length + ·)).map (· + 1) =
            (closeWithin outer rest).map ((cls :: front).length + ·) := by
        rw [same, Option.map_map]
        congr 1
        funext count
        simp only [Function.comp_apply, List.length_cons]
        omega
      cases cls with
      | opening =>
          rw [List.cons_append, closeWithin, inductionHypothesis, Option.map_or, closeWithin,
            goesOn]
          rw [List.count_cons_self, List.count_cons_of_ne (by decide)]
          omega
      | closing =>
          cases depth with
          | zero => rfl
          | succ depth =>
              rw [List.cons_append, closeWithin, inductionHypothesis, Option.map_or, closeWithin,
                goesOn]
              rw [List.count_cons_self, List.count_cons_of_ne (by decide)]
              omega
      | space | comment | prefixMark | stringOpen | stringRest | atom =>
          simp only [List.cons_append, closeWithin]
          rw [inductionHypothesis, Option.map_or, goesOn]
          rw [List.count_cons_of_ne (by decide), List.count_cons_of_ne (by decide)]

/-- A scan that passes all classes never counts below zero. -/
theorem count_closing_le_of_closeWithin {depth : Nat} {classes : List ByteClass}
    (passed : closeWithin depth classes = none) :
    classes.count .closing ≤ depth + classes.count .opening := by
  induction classes generalizing depth with
  | nil => simp
  | cons cls rest inductionHypothesis =>
      cases cls with
      | opening =>
          simp only [closeWithin, Option.map_eq_none_iff] at passed
          have bound := inductionHypothesis passed
          rw [List.count_cons_self, List.count_cons_of_ne (by decide)]
          omega
      | closing =>
          cases depth with
          | zero => contradiction
          | succ depth =>
              simp only [closeWithin, Option.map_eq_none_iff] at passed
              have bound := inductionHypothesis passed
              rw [List.count_cons_self, List.count_cons_of_ne (by decide)]
              omega
      | space | comment | prefixMark | stringOpen | stringRest | atom =>
          simp only [closeWithin, Option.map_eq_none_iff] at passed
          rw [List.count_cons_of_ne (by decide), List.count_cons_of_ne (by decide)]
          exact inductionHypothesis passed

theorem count_map_flip (classes : List ByteClass) (cls : ByteClass) :
    (classes.map .flip).count cls = classes.count cls.flip := by
  rw [List.count, List.countP_map, List.count]
  congr 1
  funext other
  cases other <;> cases cls <;> rfl

theorem openWithin_append (depth : Nat) (front rest : List ByteClass) :
    openWithin depth (front ++ rest) =
      (openWithin depth front).or
        ((openWithin (depth + front.count .closing - front.count .opening) rest).map
          (front.length + ·)) := by
  simp only [openWithin_eq, List.map_append, closeWithin_append, count_map_flip, List.length_map]
  rfl

theorem count_opening_le_of_openWithin {depth : Nat} {classes : List ByteClass}
    (passed : openWithin depth classes = none) :
    classes.count .opening ≤ depth + classes.count .closing := by
  rw [openWithin_eq] at passed
  have bound := count_closing_le_of_closeWithin passed
  rwa [count_map_flip, count_map_flip] at bound

theorem openWithin_succ (depth : Nat) (classes : List ByteClass) :
    openWithin (depth + 1) classes =
      (openWithin 0 classes).bind fun count =>
        (openWithin depth (classes.drop count)).map (count + ·) := by
  simp only [openWithin_eq, closeWithin_succ, List.map_drop]

/-! ## From a position on -/

variable {classes : List ByteClass} {pos depth : Nat}

/-- The scan forward has not returned when it comes to `later`. -/
def PassesForward (classes : List ByteClass) (pos depth later : Nat) : Prop :=
  ∀ stop, closeForward classes pos depth = some stop → later < stop

/-- The scan backward has not returned when it comes to `earlier`. -/
def PassesBackward (classes : List ByteClass) (pos depth earlier : Nat) : Prop :=
  ∀ start, openBackward classes pos depth = some start → start < earlier

/-- To leave `depth + 1` lists is to leave the innermost one and then the others. -/
theorem closeForward_depth_succ (classes : List ByteClass) (pos depth : Nat) :
    closeForward classes pos (depth + 1) =
      (closeForward classes pos 0).bind (closeForward classes · depth) := by
  simp only [closeForward, closeWithin_succ, Option.bind_map, Option.map_bind]
  congr 1
  funext count
  simp only [Function.comp_apply, Option.map_map, List.drop_drop]
  congr 1
  funext more
  simp only [Function.comp_apply]
  omega

theorem openBackward_depth_succ (classes : List ByteClass) (pos depth : Nat) :
    openBackward classes pos (depth + 1) =
      (openBackward classes pos 0).bind (openBackward classes · depth) := by
  simp only [openBackward, openWithin_succ, Option.bind_map, Option.map_bind, drop_before]
  congr 1
  funext count
  have within : min (min pos classes.length - count) classes.length =
      min pos classes.length - count := by omega
  simp only [Function.comp_apply, Option.map_map, within]
  congr 1
  funext more
  simp only [Function.comp_apply]
  omega

theorem closeWithin_classesBetween {later : Nat} (isLater : pos ≤ later)
    (passes : PassesForward classes pos depth later) :
    closeWithin depth (classesBetween classes pos later) = none := by
  rw [Option.eq_none_iff_forall_ne_some]
  intro count found
  have bounds := closeWithin_bounds found
  have whole := closeWithin_append depth (classesBetween classes pos later) (classes.drop later)
  rw [classesBetween_append_drop classes isLater, found, Option.some_or] at whole
  have isBehind := passes (pos + count) (by rw [closeForward, whole, Option.map_some])
  rw [length_classesBetween] at bounds
  omega

/-- A scan forward can be resumed at every position that it passes, at the depth that it
has there. -/
theorem PassesForward.resume {later : Nat} (passes : PassesForward classes pos depth later)
    (isLater : pos ≤ later) :
    (classesBetween classes pos later).count .closing ≤
        depth + (classesBetween classes pos later).count .opening ∧
      closeForward classes pos depth =
        closeForward classes later (depth + (classesBetween classes pos later).count .opening -
          (classesBetween classes pos later).count .closing) := by
  have passed := closeWithin_classesBetween isLater passes
  refine ⟨count_closing_le_of_closeWithin passed, ?_⟩
  rw [closeForward, ← classesBetween_append_drop classes isLater, closeWithin_append, passed,
    Option.none_or, closeForward]
  cases found : closeWithin _ (classes.drop later) with
  | none => rfl
  | some count =>
      have bounds := closeWithin_bounds found
      rw [List.length_drop] at bounds
      simp only [Option.map_some, length_classesBetween]
      congr 1
      omega

theorem openWithin_classesBetween {earlier : Nat} (isEarlier : earlier ≤ pos)
    (passes : PassesBackward classes pos depth earlier) :
    openWithin depth (classesBetween classes earlier pos).reverse = none := by
  rw [Option.eq_none_iff_forall_ne_some]
  intro count found
  have bounds := openWithin_bounds found
  have whole := openWithin_append depth (classesBetween classes earlier pos).reverse
    (before classes earlier)
  rw [reverse_classesBetween_append_before classes isEarlier, found, Option.some_or] at whole
  have isBefore := passes (min pos classes.length - count)
    (by rw [openBackward, whole, Option.map_some])
  rw [List.length_reverse, length_classesBetween] at bounds
  omega

/-- A scan backward can be resumed in the same way. -/
theorem PassesBackward.resume {earlier : Nat} (passes : PassesBackward classes pos depth earlier)
    (isEarlier : earlier ≤ pos) :
    (classesBetween classes earlier pos).count .opening ≤
        depth + (classesBetween classes earlier pos).count .closing ∧
      openBackward classes pos depth =
        openBackward classes earlier (depth + (classesBetween classes earlier pos).count .closing -
          (classesBetween classes earlier pos).count .opening) := by
  have passed := openWithin_classesBetween isEarlier passes
  constructor
  · have bound := count_opening_le_of_openWithin passed
    rwa [List.count_reverse, List.count_reverse] at bound
  · rw [openBackward, ← reverse_classesBetween_append_before classes isEarlier, openWithin_append,
      passed, Option.none_or, List.count_reverse, List.count_reverse, openBackward]
    cases found : openWithin _ (before classes earlier) with
    | none => rfl
    | some count =>
        have bounds := openWithin_bounds found
        rw [length_before] at bounds
        simp only [Option.map_some, List.length_reverse, length_classesBetween]
        congr 1
        omega

/-- Scans compose and resume, forward and backward.  A scan at depth `depth + 1` is a scan
at depth zero and one at depth `depth` from where the first returns.  A scan that comes to a
position without having returned is the scan from there, at the depth that the brackets
passed on the way give. -/
theorem scans_compose_and_resume (classes : List ByteClass) (pos depth : Nat) :
    closeForward classes pos (depth + 1) =
        (closeForward classes pos 0).bind (closeForward classes · depth) ∧
      openBackward classes pos (depth + 1) =
        (openBackward classes pos 0).bind (openBackward classes · depth) ∧
      (∀ later, pos ≤ later → PassesForward classes pos depth later →
        let opened := (classesBetween classes pos later).count .opening
        let closed := (classesBetween classes pos later).count .closing
        closed ≤ depth + opened ∧
          closeForward classes pos depth = closeForward classes later (depth + opened - closed)) ∧
      ∀ earlier, earlier ≤ pos → PassesBackward classes pos depth earlier →
        let opened := (classesBetween classes earlier pos).count .opening
        let closed := (classesBetween classes earlier pos).count .closing
        opened ≤ depth + closed ∧
          openBackward classes pos depth =
            openBackward classes earlier (depth + closed - opened) := by
  refine ⟨closeForward_depth_succ .., openBackward_depth_succ .., ?_, ?_⟩
  · intro later isLater passes
    exact passes.resume isLater
  · intro earlier isEarlier passes
    exact passes.resume isEarlier

/-- In `((a)(a))`, scans from the first inner list forward and from the end of the second one
backward are broken off inside the second. -/
theorem scans_resume_inside_list :
    let classes : List ByteClass := [.opening, .opening, .atom, .closing, .opening, .atom, .closing,
      .closing]
    closeForward classes 2 1 = (some 4).bind (closeForward classes · 0) ∧
      openBackward classes 6 1 = (some 4).bind (openBackward classes · 0) ∧
      closeForward classes 2 1 = some 8 ∧ closeForward classes 2 1 = closeForward classes 5 1 ∧
      openBackward classes 7 0 = some 0 ∧ openBackward classes 7 0 = openBackward classes 5 1 := by
  intro classes
  have closed : closeForward classes 2 1 = some 8 := by decide
  have opened : openBackward classes 7 0 = some 0 := by decide
  have passesForward : PassesForward classes 2 1 5 := by
    intro stop found
    rw [closed, Option.some.injEq] at found
    omega
  have passesBackward : PassesBackward classes 7 0 5 := by
    intro start found
    rw [opened, Option.some.injEq] at found
    omega
  obtain ⟨_, _, resumeForward, _⟩ := scans_compose_and_resume classes 2 1
  obtain ⟨_, _, _, resumeBackward⟩ := scans_compose_and_resume classes 7 0
  exact ⟨(scans_compose_and_resume classes 2 0).1, (scans_compose_and_resume classes 6 0).2.1,
    closed, (resumeForward 5 (by decide) passesForward).2,
    opened, (resumeBackward 5 (by decide) passesBackward).2⟩

end SchemeLayout
