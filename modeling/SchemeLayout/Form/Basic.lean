import SchemeLayout.Form.Bounds

/-!
Forms in a class table.

`formForward` reads the next form after a position, `formBackward` the last one
before it, both within the enclosing list.  A form read backward ends at or
before the position, a form read forward starts at or after it, and no form is
empty.
-/

set_option autoImplicit false

namespace SchemeLayout

/-- A form from `start` to `stop`, whose prefix marks lie in front of `body`. -/
structure Form where
  start : Nat
  body : Nat
  stop : Nat
  shape : Shape
  deriving DecidableEq, Repr

namespace Reading

def formAfter (reading : Reading) (pos : Nat) : Form :=
  let start := pos + reading.gap
  ⟨start, start + reading.lead, start + reading.lead + reading.body, reading.shape⟩

def formBefore (reading : Reading) (pos : Nat) : Form :=
  let stop := pos - reading.gap
  ⟨stop - reading.body - reading.lead, stop - reading.body, stop, reading.shape⟩

theorem stop_formAfter (reading : Reading) (pos : Nat) :
    (reading.formAfter pos).stop = pos + reading.size := by
  simp only [formAfter, size]
  omega

theorem start_formBefore (reading : Reading) (pos : Nat) :
    (reading.formBefore pos).start = pos - reading.size := by
  simp only [formBefore, size]
  omega

end Reading

/-- The first position at or after `pos` whose class is not trivia. -/
def skipTriviaForward (classes : List ByteClass) (pos : Nat) : Nat :=
  min pos classes.length + runLength ByteClass.isTrivia (classes.drop pos)

/-- The last position at or before `pos` with no trivia right in front of it. -/
def skipTriviaBackward (classes : List ByteClass) (pos : Nat) : Nat :=
  min pos classes.length - runLength ByteClass.isTrivia (before classes pos)

/-- The first form at or after a position, if one comes before the end of the
enclosing list. -/
def formForward (classes : List ByteClass) (pos : Nat) : Option Form :=
  (readForward (classes.drop pos)).map (·.formAfter (min pos classes.length))

/-- The last form that ends at or before a position, if one comes after the start
of the enclosing list. -/
def formBackward (classes : List ByteClass) (pos : Nat) : Option Form :=
  (readBackward (before classes pos)).map (·.formBefore (min pos classes.length))

variable {classes : List ByteClass}

theorem formForward_bounds {pos : Nat} {form : Form}
    (found : formForward classes pos = some form) :
    pos ≤ form.start ∧ form.start ≤ form.body ∧ form.body < form.stop ∧
      form.stop ≤ classes.length := by
  obtain ⟨reading, read, rfl⟩ := Option.map_eq_some_iff.mp found
  have bounds := readForward_bounds read
  simp only [Reading.size, List.length_drop] at bounds
  simp only [Reading.formAfter]
  omega

theorem formBackward_bounds {pos : Nat} {form : Form}
    (found : formBackward classes pos = some form) :
    form.start ≤ form.body ∧ form.body < form.stop ∧ form.stop ≤ min pos classes.length := by
  obtain ⟨reading, read, rfl⟩ := Option.map_eq_some_iff.mp found
  have bounds := readBackward_bounds read
  simp only [Reading.size, length_before] at bounds
  simp only [Reading.formBefore]
  omega

theorem skipTriviaForward_le_length (classes : List ByteClass) (pos : Nat) :
    skipTriviaForward classes pos ≤ classes.length := by
  have bound := runLength_le_length ByteClass.isTrivia (classes.drop pos)
  rw [List.length_drop] at bound
  unfold skipTriviaForward
  omega

theorem skipTriviaBackward_le (classes : List ByteClass) (pos : Nat) :
    skipTriviaBackward classes pos ≤ min pos classes.length :=
  Nat.sub_le _ _

end SchemeLayout
