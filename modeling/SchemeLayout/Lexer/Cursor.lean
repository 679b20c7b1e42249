import SchemeLayout.Text.Utf8

/-!
A forward cursor over a text in a padded buffer.

The buffer holds the bytes, a zero byte after them, and zeros up to the next
multiple of 64.  Reading outside the buffer, or searching from a position past
the end of the text, is a `Fault`; moving alone never is.
-/

set_option autoImplicit false

namespace SchemeLayout

/-- What a cursor must not be asked to do. -/
inductive Fault where
  /-- A read outside the padded buffer. -/
  | outsideBuffer (index : Nat)
  /-- A search that starts past the end of the text. -/
  | pastEnd (pos : Nat)
  /-- A repetition that does not move on. -/
  | stalled (pos : Nat)
  /-- A comment mark that closes a comment nobody opened. -/
  | unopened (pos : Nat)
  deriving DecidableEq, Repr

/-- Size of the buffer that holds a text. -/
def paddedLength (bytes : Bytes) : Nat := (bytes.length + 1 + 63) / 64 * 64

theorem length_lt_paddedLength (bytes : Bytes) : bytes.length < paddedLength bytes := by
  unfold paddedLength
  omega

structure Cursor (bytes : Bytes) where
  pos : Nat := 0
  deriving DecidableEq, Repr

namespace Cursor

variable {bytes : Bytes}

def read (bytes : Bytes) (index : Nat) : Except Fault UInt8 :=
  if index < paddedLength bytes then
    .ok (bytes.getD index 0)
  else
    .error (.outsideBuffer index)

theorem read_of_le_length {index : Nat} (within : index ≤ bytes.length) :
    read bytes index = .ok (bytes.getD index 0) := by
  rw [read, if_pos (Nat.lt_of_le_of_lt within (length_lt_paddedLength bytes))]

def current (cursor : Cursor bytes) : Except Fault UInt8 := read bytes cursor.pos

def peek (cursor : Cursor bytes) : Except Fault UInt8 := read bytes (cursor.pos + 1)

def atEnd (cursor : Cursor bytes) : Bool := bytes.length ≤ cursor.pos

def advance (cursor : Cursor bytes) : Cursor bytes := ⟨cursor.pos + 1⟩

/-- Move by `count` bytes, but not over the end of the text. -/
def advanceBy (cursor : Cursor bytes) (count : Nat) : Cursor bytes :=
  ⟨min (cursor.pos + count) (max bytes.length cursor.pos)⟩

/-- Move over one character, but not over the end of the text. -/
def advanceChar (cursor : Cursor bytes) : Except Fault (Cursor bytes) :=
  match cursor.current with
  | .error fault => .error fault
  | .ok byte => .ok (cursor.advanceBy (charWidth byte))

def eatWhile (wanted : UInt8 → Bool) (cursor : Cursor bytes) : Cursor bytes :=
  ⟨cursor.pos + ((bytes.drop cursor.pos).takeWhile wanted).length⟩

/-- Move to the next line break, or to the end. -/
def eatLine (cursor : Cursor bytes) : Except Fault (Cursor bytes) :=
  if cursor.pos ≤ bytes.length then
    .ok (cursor.eatWhile fun byte => byte != 0x0A && byte != 0x0D)
  else
    .error (.pastEnd cursor.pos)

/-- Move to the next double quote or backslash, or to the end, and tell the byte
found there, zero at the end. -/
def seekStringMark (cursor : Cursor bytes) : Except Fault (UInt8 × Cursor bytes) :=
  if cursor.pos ≤ bytes.length then
    let found := cursor.eatWhile fun byte => byte != 0x22 && byte != 0x5C
    .ok (bytes.getD found.pos 0, found)
  else
    .error (.pastEnd cursor.pos)

@[simp] theorem pos_advance (cursor : Cursor bytes) : cursor.advance.pos = cursor.pos + 1 := rfl

theorem pos_le_pos_advanceBy (cursor : Cursor bytes) (count : Nat) :
    cursor.pos ≤ (cursor.advanceBy count).pos := by
  simp only [advanceBy]
  omega

/-- A cursor before the end moves as far as asked, or to the end. -/
theorem pos_advanceBy_of_le {cursor : Cursor bytes} (within : cursor.pos ≤ bytes.length)
    (count : Nat) : (cursor.advanceBy count).pos = min (cursor.pos + count) bytes.length := by
  simp only [advanceBy]
  omega

theorem pos_le_pos_eatWhile (wanted : UInt8 → Bool) (cursor : Cursor bytes) :
    cursor.pos ≤ (cursor.eatWhile wanted).pos :=
  Nat.le_add_right _ _

theorem pos_eatWhile_le {wanted : UInt8 → Bool} {cursor : Cursor bytes}
    (within : cursor.pos ≤ bytes.length) : (cursor.eatWhile wanted).pos ≤ bytes.length := by
  have bound := (List.takeWhile_prefix wanted (l := bytes.drop cursor.pos)).length_le
  simp only [eatWhile, List.length_drop] at *
  omega

end Cursor

end SchemeLayout
