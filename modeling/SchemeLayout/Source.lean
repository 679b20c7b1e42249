import SchemeLayout.Lexer.Classify
import SchemeLayout.Text.Line

/-!
A snapshot of a text: its bytes with their class table and line index.

The table and the index are computed once, when the snapshot is taken, and the
proof fields tie them to the bytes.  An edit calls for a new snapshot.

A snapshot is meant for texts of up to `maxLength` bytes, whose offsets, lines and
counts fit machine words.  What a longer text has behind that is for the caller to
cut off: `ofBytes` takes the bytes as they are.
-/

set_option autoImplicit false

namespace SchemeLayout

/-- The length of the longest text that a snapshot is meant for. -/
def maxLength : Nat := UInt32.size - 1

structure Source where
  bytes : Bytes
  classes : List ByteClass := classify bytes
  starts : List Nat := lineStarts bytes
  classes_eq : classes = classify bytes := by rfl
  starts_eq : starts = lineStarts bytes := by rfl

namespace Source

def ofBytes (bytes : Bytes) : Source := { bytes := bytes }

def ofString (text : String) : Source := ofBytes (encode text)

@[simp] theorem bytes_ofBytes (bytes : Bytes) : (ofBytes bytes).bytes = bytes := rfl

@[simp] theorem classes_ofBytes (bytes : Bytes) :
    (ofBytes bytes).classes = classify bytes := rfl

@[simp] theorem starts_ofBytes (bytes : Bytes) :
    (ofBytes bytes).starts = lineStarts bytes := rfl

theorem ofBytes_bytes (source : Source) : ofBytes source.bytes = source := by
  cases source with
  | mk bytes classes starts classesEq startsEq =>
      subst classesEq startsEq
      rfl

def length (source : Source) : Nat := source.bytes.length

@[simp] theorem length_ofBytes (bytes : Bytes) : (ofBytes bytes).length = bytes.length := rfl

@[simp] theorem length_classes (source : Source) : source.classes.length = source.length := by
  rw [source.classes_eq, length_classify, length]

/-- The byte at an offset, zero past the end. -/
def byteAt (source : Source) (offset : Nat) : UInt8 := source.bytes.getD offset 0

def classAt? (source : Source) (offset : Nat) : Option ByteClass := source.classes[offset]?

/-- The bytes between two offsets, as far as the text reaches. -/
def range (source : Source) (start stop : Nat) : Bytes :=
  (source.bytes.drop start).take (stop - start)

@[simp] theorem length_range (source : Source) (start stop : Nat) :
    (source.range start stop).length = min stop source.length - start := by
  simp only [range, length, List.length_take, List.length_drop]
  omega

theorem range_min (source : Source) (start stop : Nat) :
    source.range start (min stop source.length) = source.range start stop := by
  rw [range, range, List.take_eq_take_iff, List.length_drop, length]
  omega

/-- A range that is cut down to the text is the same range. -/
theorem range_clamp (source : Source) (start stop : Nat) :
    source.range (min start (min stop source.length)) (min stop source.length) =
      source.range start stop := by
  rcases Nat.le_total start (min stop source.length) with within | beyond
  · rw [Nat.min_eq_left within, range_min]
  · have nothing : source.range start stop = [] := by
      rw [← List.length_eq_zero_iff, length_range, Nat.sub_eq_zero_of_le beyond]
    rw [Nat.min_eq_right beyond, nothing, range, Nat.sub_self, List.take_zero]

/-- The text between two offsets, empty when a character is cut. -/
def slice (source : Source) (start stop : Nat) : String := decode (source.range start stop)

/-- Number of lines; even an empty text has one. -/
def lineCount (source : Source) : Nat := source.starts.length

theorem lineCount_pos (source : Source) : 0 < source.lineCount := by
  simp [lineCount, source.starts_eq, lineStarts]

/-- The line an offset lies on.  Offsets past the end lie on the last line. -/
def lineOf (source : Source) (offset : Nat) : Nat :=
  lineAt source.starts (min offset source.length)

theorem lineOf_lt_lineCount (source : Source) (offset : Nat) :
    source.lineOf offset < source.lineCount :=
  lineAt_lt_length (List.length_pos_iff.mp source.lineCount_pos) _

def lineStartOf? (source : Source) (line : Nat) : Option Nat := source.starts[line]?

def lineStart (source : Source) (offset : Nat) : Nat :=
  source.starts.getD (source.lineOf offset) 0

/-- The offset with the byte before it taken off, if that byte is `byte`. -/
def dropBefore (source : Source) (byte : UInt8) (offset : Nat) : Nat :=
  if 0 < offset ∧ source.byteAt (offset - 1) = byte then offset - 1 else offset

/-- Where the content of the line of an offset ends, in front of its delimiter. -/
def lineEnd (source : Source) (offset : Nat) : Nat :=
  match source.lineStartOf? (source.lineOf offset + 1) with
  | none => source.length
  | some next =>
      max (source.dropBefore carriageReturn (source.dropBefore lineFeed next))
        (source.lineStart offset)

def lineBytes (source : Source) (offset : Nat) : Bytes :=
  source.range (source.lineStart offset) (source.lineEnd offset)

def lineText (source : Source) (offset : Nat) : String :=
  source.slice (source.lineStart offset) (source.lineEnd offset)

end Source

end SchemeLayout
