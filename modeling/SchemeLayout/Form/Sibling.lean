import SchemeLayout.Form.Basic

/-!
The forms of one list, enumerated from either side.

An enumeration reads on where the last reading has stopped, so it passes every
class once.  `formsFrom_eq` and `formsBefore_eq` say that it is the same as
reading one form after the other from the positions between them.
-/

set_option autoImplicit false

namespace SchemeLayout

/-- The forms in the classes after a position, in order. -/
def formsAhead (pos : Nat) (classes : List ByteClass) : List Form :=
  match _found : readForward classes with
  | none => []
  | some reading =>
      reading.formAfter pos :: formsAhead (pos + reading.size) (classes.drop reading.size)
termination_by classes.length
decreasing_by
  have bounds := readForward_bounds _found
  simp only [Reading.size, List.length_drop] at *
  omega

/-- The forms in the classes before a position, which are read backward, nearest
first. -/
def formsBehind (pos : Nat) (classes : List ByteClass) : List Form :=
  match _found : readBackward classes with
  | none => []
  | some reading =>
      reading.formBefore pos :: formsBehind (pos - reading.size) (classes.drop reading.size)
termination_by classes.length
decreasing_by
  have bounds := readBackward_bounds _found
  simp only [Reading.size, List.length_drop] at *
  omega

def formsFrom (classes : List ByteClass) (pos : Nat) : List Form :=
  formsAhead (min pos classes.length) (classes.drop pos)

/-- The forms from a position back to the start of the enclosing list, nearest
first. -/
def formsBefore (classes : List ByteClass) (pos : Nat) : List Form :=
  formsBehind (min pos classes.length) (before classes pos)

theorem formsFrom_eq (classes : List ByteClass) (pos : Nat) :
    formsFrom classes pos = match formForward classes pos with
      | none => []
      | some form => form :: formsFrom classes form.stop := by
  rw [formsFrom, formsAhead, formForward]
  split
  next missing => simp [missing]
  next reading found =>
    have bounds := readForward_bounds found
    rw [List.length_drop] at bounds
    have within : min pos classes.length = pos := by
      simp only [Reading.size] at bounds
      omega
    simp only [found, Option.map_some, Reading.stop_formAfter, formsFrom, within,
      List.drop_drop, List.cons.injEq, true_and]
    rw [Nat.min_eq_left (by omega)]

theorem formsBefore_eq (classes : List ByteClass) (pos : Nat) :
    formsBefore classes pos = match formBackward classes pos with
      | none => []
      | some form => form :: formsBefore classes form.start := by
  rw [formsBefore, formsBehind, formBackward]
  split
  next missing => simp [missing]
  next reading found =>
    simp only [found, Option.map_some, Reading.start_formBefore, formsBefore, drop_before,
      List.cons.injEq, true_and]
    rw [Nat.min_eq_left (show min pos classes.length - reading.size ≤ classes.length by omega)]

theorem length_formsBefore_le (classes : List ByteClass) (pos : Nat) :
    (formsBefore classes pos).length ≤ min pos classes.length := by
  induction pos using Nat.strongRecOn with
  | _ pos inductionHypothesis =>
      rw [formsBefore_eq]
      cases found : formBackward classes pos with
      | none => exact Nat.zero_le _
      | some form =>
          have bounds := formBackward_bounds found
          have others := inductionHypothesis form.start (by omega)
          simp only [List.length_cons]
          omega

theorem formsBefore_eq_nil_iff {classes : List ByteClass} {pos : Nat} :
    formsBefore classes pos = [] ↔ formBackward classes pos = none := by
  rw [formsBefore_eq]
  split <;> simp [*]

end SchemeLayout
