import SchemeLayout.Lexer.ByteClass

/-!
Bracket matching in a class table.

`closeForward` and `openBackward` carry the nesting depth as an argument, so a
scan can stop at any point and go on from there.  What lies in front of a
position is read backward, nearest first; matching there is matching forward
with the brackets turned around.
-/

set_option autoImplicit false

namespace SchemeLayout

/-- Number of classes up to and including the closing bracket that is met at
depth zero. -/
def closeWithin : Nat → List ByteClass → Option Nat
  | _, [] => none
  | depth, .opening :: rest => (closeWithin (depth + 1) rest).map (· + 1)
  | 0, .closing :: _ => some 1
  | depth + 1, .closing :: rest => (closeWithin depth rest).map (· + 1)
  | depth, _ :: rest => (closeWithin depth rest).map (· + 1)

/-- Number of classes, read backward, up to and including the opening bracket that
is met at depth zero. -/
def openWithin : Nat → List ByteClass → Option Nat
  | _, [] => none
  | depth, .closing :: rest => (openWithin (depth + 1) rest).map (· + 1)
  | 0, .opening :: _ => some 1
  | depth + 1, .opening :: rest => (openWithin depth rest).map (· + 1)
  | depth, _ :: rest => (openWithin depth rest).map (· + 1)

theorem closeWithin_bounds {depth count : Nat} {classes : List ByteClass}
    (found : closeWithin depth classes = some count) :
    0 < count ∧ count ≤ classes.length := by
  fun_induction closeWithin depth classes generalizing count with
  | case1 => contradiction
  | case3 => cases found; simp
  | case2 depth rest inductionHypothesis | case4 depth rest inductionHypothesis
  | case5 depth cls rest _ _ _ inductionHypothesis =>
      obtain ⟨inner, foundInner, rfl⟩ := Option.map_eq_some_iff.mp found
      have bounds := inductionHypothesis foundInner
      simp only [List.length_cons]
      omega

/-- Matching backward is matching forward with the brackets turned around. -/
theorem openWithin_eq (depth : Nat) (classes : List ByteClass) :
    openWithin depth classes = closeWithin depth (classes.map .flip) := by
  induction classes generalizing depth with
  | nil => simp [openWithin, closeWithin]
  | cons cls rest inductionHypothesis =>
      cases cls <;> cases depth <;>
        simp [openWithin, closeWithin, ByteClass.flip, inductionHypothesis]

theorem openWithin_bounds {depth count : Nat} {classes : List ByteClass}
    (found : openWithin depth classes = some count) :
    0 < count ∧ count ≤ classes.length := by
  rw [openWithin_eq] at found
  simpa using closeWithin_bounds found

/-- Move up to `count` classes over to those passed already, which are read backward. -/
def passOver (passed : List ByteClass) : Nat → List ByteClass → List ByteClass
  | count + 1, cls :: rest => passOver (cls :: passed) count rest
  | _, _ => passed

/-- The classes in front of a position, nearest first. -/
def before (classes : List ByteClass) (pos : Nat) : List ByteClass := passOver [] pos classes

theorem passOver_eq (passed : List ByteClass) (count : Nat) (classes : List ByteClass) :
    passOver passed count classes = (classes.take count).reverse ++ passed := by
  induction count generalizing passed classes with
  | zero => simp [passOver]
  | succ count inductionHypothesis =>
      cases classes with
      | nil => simp [passOver]
      | cons cls rest => simp [passOver, inductionHypothesis]

theorem before_eq (classes : List ByteClass) (pos : Nat) :
    before classes pos = (classes.take pos).reverse := by
  rw [before, passOver_eq, List.append_nil]

@[simp] theorem length_before (classes : List ByteClass) (pos : Nat) :
    (before classes pos).length = min pos classes.length := by
  simp [before_eq]

theorem drop_before (classes : List ByteClass) (pos count : Nat) :
    (before classes pos).drop count = before classes (min pos classes.length - count) := by
  rw [before_eq, List.drop_reverse, List.length_take, List.take_take, before_eq,
    Nat.min_eq_left (by omega)]

/-- The position after the closing bracket that is met at depth zero, where
`depth` lists are open at `pos` beside the one to be closed. -/
def closeForward (classes : List ByteClass) (pos depth : Nat) : Option Nat :=
  (closeWithin depth (classes.drop pos)).map (pos + ·)

/-- The position of the opening bracket that is met at depth zero, where `depth`
closing brackets have been passed on the way back to `pos`. -/
def openBackward (classes : List ByteClass) (pos depth : Nat) : Option Nat :=
  (openWithin depth (before classes pos)).map (min pos classes.length - ·)

theorem closeForward_bounds {classes : List ByteClass} {pos depth stop : Nat}
    (found : closeForward classes pos depth = some stop) :
    pos < stop ∧ stop ≤ classes.length := by
  obtain ⟨count, foundCount, rfl⟩ := Option.map_eq_some_iff.mp found
  have bounds := closeWithin_bounds foundCount
  simp only [List.length_drop] at bounds
  omega

theorem openBackward_lt {classes : List ByteClass} {pos depth start : Nat}
    (found : openBackward classes pos depth = some start) :
    start < pos ∧ start < classes.length := by
  obtain ⟨count, foundCount, rfl⟩ := Option.map_eq_some_iff.mp found
  have bounds := openWithin_bounds foundCount
  simp only [length_before] at bounds
  omega

end SchemeLayout
