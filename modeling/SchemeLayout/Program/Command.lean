import SchemeLayout.Program.Options
import SchemeLayout.Layout.Reindent

/-!
The commands: format a file, and tell the indentation at an offset of a file.

A command is given what reading the file gave, so that it decides alone what to
make of a failure.
-/

set_option autoImplicit false

namespace SchemeLayout

abbrev ReadResult := Except ReadFailure Bytes

inductive FormatOutcome where
  | unchanged (text : Bytes)
  | reindented (text : Bytes)
  deriving DecidableEq, Repr

namespace FormatOutcome

def text : FormatOutcome → Bytes
  | unchanged text | reindented text => text

def isChanged : FormatOutcome → Bool
  | unchanged _ => false
  | reindented _ => true

end FormatOutcome

namespace Command

/-- The text of a file, which has to be valid UTF-8. -/
def readText (path : String) : ReadResult → Except CommandError Bytes
  | .error .missing => .error (.notFound path)
  | .error failure => .error (.unreadable path failure)
  | .ok content =>
      match decode? content with
      | some _ => .ok content
      | none => .error (.invalidUtf8 path)

def formatText (options : Options) (text : Bytes) : FormatOutcome :=
  let formatted := reindentAll options.style text
  if formatted = text then .unchanged formatted else .reindented formatted

def formatFile (options : Options) (path : String) (result : ReadResult) :
    Except CommandError FormatOutcome :=
  (readText path result).map (formatText options)

def parseOffset (text : String) : Except CommandError Nat :=
  match readNumeral? text.toList with
  | some offset => .ok offset.toNat
  | none => .error (.invalidOffset text)

/-- The indentation of a line that starts at an offset of a text. -/
def indentAt (options : Options) (text : Bytes) (offset : Nat) : Except CommandError Nat :=
  if text.length < offset then
    .error (.offsetOutOfRange offset text.length)
  else
    .ok ((Source.ofBytes text).indentation options.style offset)

def indentInFile (options : Options) (path : String) (offset : Nat) (result : ReadResult) :
    Except CommandError Nat :=
  match readText path result with
  | .error error => .error error
  | .ok text => indentAt options text offset

theorem isChanged_formatText (options : Options) (text : Bytes) :
    (formatText options text).isChanged = true ↔ (formatText options text).text ≠ text := by
  simp only [formatText]
  split <;> simp_all [FormatOutcome.isChanged, FormatOutcome.text]

end Command

end SchemeLayout
