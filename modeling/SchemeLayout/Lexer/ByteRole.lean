/-!
The part a byte can play at the start of a token.

Only eighteen ASCII bytes mean anything to the lexer; all others, the bytes of
longer characters among them, are ordinary.
-/

set_option autoImplicit false

namespace SchemeLayout

/-- A property of bytes holds once it has been checked of all 256 values. -/
theorem forall_byte {property : UInt8 → Prop}
    (checked : ∀ value : Fin 256, property (UInt8.ofFin value)) (byte : UInt8) :
    property byte := by
  simpa using checked byte.toFin

inductive ByteRole where
  /-- Space, tab and form feed. -/
  | blank
  /-- Line feed and carriage return. -/
  | lineBreak
  | semicolon
  | doubleQuote
  | opening
  | closing
  /-- Quote and quasiquote. -/
  | tick
  | comma
  | atSign
  | hash
  | bar
  | backslash
  | ordinary
  deriving DecidableEq, Repr, Inhabited

namespace ByteRole

def of (byte : UInt8) : ByteRole :=
  if byte = 0x20 ∨ byte = 0x09 ∨ byte = 0x0C then blank
  else if byte = 0x0A ∨ byte = 0x0D then lineBreak
  else if byte = 0x3B then semicolon
  else if byte = 0x22 then doubleQuote
  else if byte = 0x28 ∨ byte = 0x5B then opening
  else if byte = 0x29 ∨ byte = 0x5D then closing
  else if byte = 0x27 ∨ byte = 0x60 then tick
  else if byte = 0x2C then comma
  else if byte = 0x40 then atSign
  else if byte = 0x23 then hash
  else if byte = 0x7C then bar
  else if byte = 0x5C then backslash
  else ordinary

def endsAtom : ByteRole → Bool
  | blank | lineBreak | semicolon | doubleQuote | opening | closing => true
  | _ => false

theorem of_eq_lineBreak_iff (byte : UInt8) :
    of byte = lineBreak ↔ byte = 0x0A ∨ byte = 0x0D := by
  revert byte
  exact forall_byte (by decide +kernel)

theorem of_eq_hash_iff (byte : UInt8) : of byte = hash ↔ byte = 0x23 := by
  revert byte
  exact forall_byte (by decide +kernel)

end ByteRole

end SchemeLayout
