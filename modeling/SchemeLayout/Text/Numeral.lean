/-!
Decimal numerals of 32-bit numbers.

A numeral is an optional plus sign and at least one ASCII digit; leading zeros
count for nothing, and the value must fit.  Writing gives the digits without a
sign and without leading zeros, and reading gives the number back.
-/

set_option autoImplicit false

namespace SchemeLayout

def writeNumeral (value : Nat) : List Char := Nat.toDigits 10 value

/-- The digits left once a plus sign is taken off. -/
def unsigned : List Char → List Char
  | '+' :: digits => digits
  | digits => digits

def readNumeral? (chars : List Char) : Option UInt32 :=
  if unsigned chars ≠ [] ∧ (unsigned chars).all Char.isDigit = true ∧
      Nat.ofDigitChars 10 (unsigned chars) 0 < UInt32.size then
    some (UInt32.ofNat (Nat.ofDigitChars 10 (unsigned chars) 0))
  else
    none

theorem readNumeral?_eq_some_iff {chars : List Char} {value : UInt32} :
    readNumeral? chars = some value ↔
      unsigned chars ≠ [] ∧ (unsigned chars).all Char.isDigit = true ∧
        Nat.ofDigitChars 10 (unsigned chars) 0 = value.toNat := by
  unfold readNumeral?
  constructor
  · intro found
    split at found
    next accepted =>
      refine ⟨accepted.1, accepted.2.1, ?_⟩
      cases found
      simp [Nat.mod_eq_of_lt accepted.2.2]
    next refused => contradiction
  · rintro ⟨nonempty, digits, same⟩
    have fits : Nat.ofDigitChars 10 (unsigned chars) 0 < UInt32.size := by
      rw [same]
      exact value.toNat_lt
    rw [if_pos ⟨nonempty, digits, fits⟩, same, UInt32.ofNat_toNat]

theorem unsigned_writeNumeral (value : Nat) :
    unsigned (writeNumeral value) = writeNumeral value := by
  unfold unsigned
  split
  next digits written =>
    have isDigit : Char.isDigit '+' = true :=
      Nat.isDigit_of_mem_toDigits (by decide) (by decide)
        (show '+' ∈ writeNumeral value by rw [written]; simp)
    contradiction
  next => rfl

@[simp] theorem readNumeral?_writeNumeral (value : UInt32) :
    readNumeral? (writeNumeral value.toNat) = some value := by
  rw [readNumeral?_eq_some_iff, unsigned_writeNumeral]
  refine ⟨Nat.toDigits_ne_nil, ?_, Nat.ofDigitChars_ten_toDigits⟩
  rw [List.all_eq_true]
  intro char membership
  exact Nat.isDigit_of_mem_toDigits (by decide) (by decide) membership

end SchemeLayout
