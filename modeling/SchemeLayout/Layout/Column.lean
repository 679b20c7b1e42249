import SchemeLayout.Source

/-!
Visual columns and runs of blanks.

A tab adds a fixed width wherever it stands, every other character adds one, and
a byte that continues a character adds nothing.  Columns and widths are machine
words, so a sum that does not fit one is taken modulo `2 ^ 32`.
-/

set_option autoImplicit false

namespace SchemeLayout

/-- A word stands for a number. -/
instance coeWordNat : Coe UInt32 Nat := ⟨UInt32.toNat⟩

/-- A number that comes from outside is read modulo `2 ^ 32`. -/
instance coeNatWord : Coe Nat UInt32 := ⟨UInt32.ofNat⟩

def tab : UInt8 := 0x09

def space : UInt8 := 0x20

def byteWidth (tabWidth : UInt32) (byte : UInt8) : UInt32 :=
  if isContinuation byte then 0 else if byte = tab then tabWidth else 1

/-- The column behind some bytes, from that in front of them. -/
def columnBehind (tabWidth column : UInt32) (bytes : Bytes) : UInt32 :=
  bytes.foldl (fun column byte => column + byteWidth tabWidth byte) column

@[simp] theorem columnBehind_cons (tabWidth column : UInt32) (byte : UInt8) (rest : Bytes) :
    columnBehind tabWidth column (byte :: rest) =
      columnBehind tabWidth (column + byteWidth tabWidth byte) rest := rfl

/-- The bytes that make up indentation. -/
def isIndentByte (byte : UInt8) : Bool := byte == space || byte == tab

def spaces (width : Nat) : Bytes := List.replicate width space

@[simp] theorem length_spaces (width : Nat) : (spaces width).length = width := by
  simp [spaces]

namespace Source

/-- What stands on the line of an offset in front of the offset. -/
def lineFront (source : Source) (offset : Nat) : Bytes :=
  source.range (source.lineStart offset) offset

def column (source : Source) (tabWidth : UInt32) (offset : Nat) : UInt32 :=
  columnBehind tabWidth 0 (source.lineFront offset)

/-- Length of the run of spaces and tabs at an offset. -/
def indentRun (source : Source) (offset : Nat) : Nat :=
  ((source.bytes.drop offset).takeWhile isIndentByte).length

end Source

end SchemeLayout
