import SchemeLayout.Form.Navigator
import SchemeLayout.Lexer.Cursor

/-!
Scans over a class table with every access checked.

The scans of the library are functions on lists, which have an answer for every
position.  Here the same scans go from index to index through a table, as a program
with arrays does it: a read outside the table, a subtraction below zero, a count of
open lists that no word holds and a repetition that does not move on are each a
`ScanFault`.
-/

set_option autoImplicit false

namespace SchemeLayout

/-- What a scan must not do. -/
inductive ScanFault where
  /-- A read outside the class table. -/
  | outsideTable (index : Nat)
  /-- A part of the table or of the buffer that is not there. -/
  | outsideRange (start stop : Nat)
  /-- A subtraction from zero. -/
  | belowZero
  /-- More open lists than a word counts. -/
  | depthOverflow
  /-- A repetition that does not move on. -/
  | stalled (pos : Nat)
  deriving DecidableEq, Repr

namespace Checked

/-! ## Steps -/

def classAt (classes : List ByteClass) (index : Nat) : Except ScanFault ByteClass :=
  match classes[index]? with
  | some cls => .ok cls
  | none => .error (.outsideTable index)

def decrement : Nat → Except ScanFault Nat
  | 0 => .error .belowZero
  | number + 1 => .ok number

def deepen (depth : UInt32) : Except ScanFault UInt32 :=
  if depth.toNat + 1 < UInt32.size then .ok (depth + 1) else .error .depthOverflow

def rise (depth : UInt32) : Except ScanFault UInt32 :=
  if depth = 0 then .error .belowZero else .ok (depth - 1)

/-! ## Runs -/

/-- Move on over the wanted classes from a position. -/
def passForward (classes : List ByteClass) (wanted : ByteClass → Bool) (pos : Nat) :
    Except ScanFault Nat :=
  if pos < classes.length then do
    if wanted (← classAt classes pos) then passForward classes wanted (pos + 1) else return pos
  else
    return pos
termination_by classes.length - pos

/-- Move back over the wanted classes in front of a position. -/
def passBackward (classes : List ByteClass) (wanted : ByteClass → Bool) :
    Nat → Except ScanFault Nat
  | 0 => return 0
  | last + 1 => do
      if wanted (← classAt classes last) then passBackward classes wanted last
      else return last + 1

def skipTriviaForward (classes : List ByteClass) (pos : Nat) : Except ScanFault Nat :=
  passForward classes ByteClass.isTrivia (min pos classes.length)

def skipTriviaBackward (classes : List ByteClass) (pos : Nat) : Except ScanFault Nat :=
  passBackward classes ByteClass.isTrivia (min pos classes.length)

/-! ## Brackets -/

/-- Look for the closing bracket at depth zero in the classes from `pos` on. -/
def closeFrom (pos : Nat) (depth : UInt32) : List ByteClass → Except ScanFault (Option Nat)
  | [] => return none
  | .opening :: rest => do closeFrom (pos + 1) (← deepen depth) rest
  | .closing :: rest => do
      if depth = 0 then return some (pos + 1) else closeFrom (pos + 1) (← rise depth) rest
  | _ :: rest => closeFrom (pos + 1) depth rest

/-- Look for the opening bracket at depth zero in classes that are read backward.  The index
of a class is the number of those still to be read. -/
def openFrom (depth : UInt32) : List ByteClass → Except ScanFault (Option Nat)
  | [] => return none
  | .closing :: rest => do openFrom (← deepen depth) rest
  | .opening :: rest => do
      if depth = 0 then return some rest.length else openFrom (← rise depth) rest
  | _ :: rest => openFrom depth rest

def closeForward (classes : List ByteClass) (pos : Nat) : Except ScanFault (Option Nat) :=
  closeFrom pos 0 (classes.drop pos)

def openBackward (classes : List ByteClass) (pos : Nat) : Except ScanFault (Option Nat) :=
  let stop := min pos classes.length
  if stop ≤ classes.length then openFrom 0 (classes.take stop).reverse
  else .error (.outsideRange 0 stop)

/-! ## Forms -/

/-- Move on over prefix marks, and over the trivia behind them. -/
def passMarks (classes : List ByteClass) (pos : Nat) : Except ScanFault (Nat × Nat) := do
  let marksEnd ← passForward classes (· == .prefixMark) pos
  return (marksEnd, ← skipTriviaForward classes marksEnd)

/-- Move on from mark to mark.  The answer tells where the last mark ends and where the
body of the form starts. -/
def chainForward (classes : List ByteClass) (marksEnd body : Nat) :
    Except ScanFault (Nat × Nat) :=
  if body < classes.length then do
    if (← classAt classes body) == .prefixMark then
      let (marksEnd, next) ← passMarks classes body
      if body < next then chainForward classes marksEnd next else throw (.stalled body)
    else
      return (marksEnd, body)
  else
    return (marksEnd, body)
termination_by classes.length - body

/-- Where the body that starts here ends, and its shape. -/
def bodyForward (classes : List ByteClass) (body : Nat) : Except ScanFault (Nat × Shape) := do
  match ← classAt classes body with
  | .opening => return ((← closeForward classes (body + 1)).getD classes.length, .list)
  | .stringOpen => return (← passForward classes (· == .stringRest) (body + 1), .string)
  | .stringRest => return (← passForward classes (· == .stringRest) body, .string)
  | _ => return (← passForward classes (· == .atom) body, .atom)

def formForward (classes : List ByteClass) (pos : Nat) : Except ScanFault (Option Form) := do
  let start ← skipTriviaForward classes pos
  if classes.length ≤ start then return none
  if (← classAt classes start) == .closing then return none
  let (marksEnd, next) ← passMarks classes start
  let (marksEnd, body) ← chainForward classes marksEnd next
  if body = classes.length then return some ⟨start, start, marksEnd, .danglingPrefix⟩
  if (← classAt classes body) == .closing then
    return some ⟨start, start, marksEnd, .danglingPrefix⟩
  let (stop, shape) ← bodyForward classes body
  return some ⟨start, body, stop, shape⟩

/-- Move back from mark to mark, to the first that applies to the form at `start`. -/
def chainBackward (classes : List ByteClass) (start : Nat) : Except ScanFault Nat := do
  let behindMark ← skipTriviaBackward classes start
  if behindMark = 0 then return start
  let mark ← decrement behindMark
  if (← classAt classes mark) != .prefixMark then return start
  let next ← passBackward classes (· == .prefixMark) mark
  if next < start then chainBackward classes next else throw (.stalled start)
termination_by start

/-- Where the body whose last class stands at `last` starts, and its shape.  A body that
starts nowhere has none. -/
def bodyBackward (classes : List ByteClass) (last : Nat) :
    Except ScanFault (Option (Nat × Shape)) := do
  match ← classAt classes last with
  | .opening | .space | .comment => return none
  | .prefixMark =>
      let start ← passBackward classes (· == .prefixMark) last
      return some (start, .danglingPrefix)
  | .closing => return some ((← openBackward classes last).getD 0, .list)
  | .stringOpen => return some (last, .string)
  | .stringRest =>
      let start ← passBackward classes (· == .stringRest) last
      if start = 0 then return some (start, .string)
      let before ← decrement start
      if (← classAt classes before) == .stringOpen then return some (before, .string)
      return some (start, .string)
  | .atom => return some (← passBackward classes (· == .atom) last, .atom)

def formBackward (classes : List ByteClass) (pos : Nat) : Except ScanFault (Option Form) := do
  let stop ← skipTriviaBackward classes pos
  if stop = 0 then return none
  match ← bodyBackward classes (← decrement stop) with
  | none => return none
  | some (body, .danglingPrefix) =>
      let start ← chainBackward classes body
      return some ⟨start, start, stop, .danglingPrefix⟩
  | some (body, shape) => return some ⟨← chainBackward classes body, body, stop, shape⟩

/-! ## Moves -/

def slice (source : Source) (start stop : Nat) : Except ScanFault String :=
  let stop := min stop source.length
  let start := min start stop
  if start ≤ stop ∧ stop ≤ paddedLength source.bytes then
    return source.slice start stop
  else
    throw (.outsideRange start stop)

def spanOf (source : Source) (form : Form) : Except ScanFault FormSpan :=
  match form.shape with
  | .list => return ⟨form.start, form.stop, .list⟩
  | .string => return ⟨form.start, form.stop, .string⟩
  | .atom => do
      if form.start = form.body then
        let text ← slice source form.body form.stop
        return ⟨form.start, form.stop, atomKind text.toList⟩
      else
        return ⟨form.start, form.stop, .atom⟩
  | .danglingPrefix => return ⟨form.start, form.stop, .atom⟩

def locate (source : Source) (offset : Nat) :
    Move → Except ScanFault (Except NavError (Option FormSpan))
  | .forward => do
      match ← formForward source.classes offset with
      | none => return .ok none
      | some form => return .ok (some (← spanOf source form))
  | .backward => do
      match ← formBackward source.classes offset with
      | none => return .ok none
      | some form => return .ok (some (← spanOf source form))
  | .up => do
      match ← openBackward source.classes offset with
      | none => return .ok none
      | some start =>
          let stop := (← closeForward source.classes (start + 1)).getD source.classes.length
          return .ok (some ⟨start, stop, .list⟩)
  | .down => do
      match ← formForward source.classes offset with
      | none => return .ok none
      | some form =>
          if form.shape = .list then
            let inner := form.body + 1
            match ← closeForward source.classes inner with
            | none => return .ok (some ⟨inner, source.classes.length, .list⟩)
            | some stop => return .ok (some ⟨inner, ← decrement stop, .list⟩)
          else
            return .error (.notAList form.start (← spanOf source form).kind)

end Checked

namespace Navigator

/-- Make a move with every access checked. -/
def moveChecked (navigator : Navigator) (direction : Move) (offset : Nat) :
    Except ScanFault (Except NavError Bool × Navigator) := do
  return navigator.settle (← Checked.locate navigator.source offset direction)

/-- Make one move after the other with every access checked. -/
def runChecked (navigator : Navigator) : List (Move × Nat) → Except ScanFault Navigator
  | [] => return navigator
  | (direction, offset) :: moves => do
      (← navigator.moveChecked direction offset).2.runChecked moves

end Navigator

end SchemeLayout
