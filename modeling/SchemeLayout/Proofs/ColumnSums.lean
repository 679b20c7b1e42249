import SchemeLayout.Layout.Indentation

/-!
Columns as sums.

A column is computed in machine words, and it stands for a sum of widths.  The
sum is a number of any size; the column is the sum modulo `2 ^ 32`, and the sum
itself as long as a word holds it.  Nothing is ever subtracted on the way, so a
sum that a word holds is computed without any overflow, and every other is not.
-/

set_option autoImplicit false

namespace SchemeLayout

/-- The word that a sum is computed to. -/
structure IsWordOf (word : UInt32) (sum : Nat) : Prop where
  wraps : word = sum
  fits : sum < UInt32.size → word.toNat = sum

theorem IsWordOf.of_wraps {word : UInt32} {sum : Nat} (wraps : word = sum) :
    IsWordOf word sum where
  wraps := wraps
  fits := by
    intro inWord
    rw [wraps, UInt32.toNat_ofNat_of_lt' inWord]

def bytesSum (tabWidth : UInt32) : Bytes → Nat
  | [] => 0
  | byte :: rest => (byteWidth tabWidth byte).toNat + bytesSum tabWidth rest

@[simp] theorem bytesSum_nil (tabWidth : UInt32) : bytesSum tabWidth [] = 0 := rfl

@[simp] theorem bytesSum_cons (tabWidth : UInt32) (byte : UInt8) (rest : Bytes) :
    bytesSum tabWidth (byte :: rest) =
      (byteWidth tabWidth byte).toNat + bytesSum tabWidth rest := rfl

@[simp] theorem bytesSum_append (tabWidth : UInt32) (left right : Bytes) :
    bytesSum tabWidth (left ++ right) = bytesSum tabWidth left + bytesSum tabWidth right := by
  induction left with
  | nil => simp
  | cons byte rest inductionHypothesis => simp [inductionHypothesis, Nat.add_assoc]

@[simp] theorem bytesSum_spaces (tabWidth : UInt32) (width : Nat) :
    bytesSum tabWidth (spaces width) = width := by
  induction width with
  | zero => rfl
  | succ width inductionHypothesis =>
      rw [spaces, List.replicate_succ, bytesSum_cons, show byteWidth tabWidth space = 1 from rfl,
        ← spaces, inductionHypothesis, UInt32.toNat_one, Nat.add_comm]

theorem columnBehind_eq (tabWidth : UInt32) (sum : Nat) (bytes : Bytes) :
    columnBehind tabWidth sum bytes = (sum + bytesSum tabWidth bytes : Nat) := by
  induction bytes generalizing sum with
  | nil => rfl
  | cons byte rest inductionHypothesis =>
      have next : (sum : UInt32) + byteWidth tabWidth byte =
          (sum + (byteWidth tabWidth byte).toNat : Nat) := by
        rw [UInt32.ofNat_add, UInt32.ofNat_toNat]
      rw [columnBehind_cons, next, inductionHypothesis, bytesSum_cons, Nat.add_assoc]

namespace Source

/-- The sum that the column of an offset stands for. -/
def columnSum (source : Source) (tabWidth : UInt32) (offset : Nat) : Nat :=
  bytesSum tabWidth (source.lineFront offset)

theorem isWordOf_column (source : Source) (tabWidth : UInt32) (offset : Nat) :
    IsWordOf (source.column tabWidth offset) (source.columnSum tabWidth offset) := by
  apply IsWordOf.of_wraps
  have behind := columnBehind_eq tabWidth 0 (source.lineFront offset)
  rwa [Nat.zero_add] at behind

/-- The sum that the indentation of a line stands for. -/
def indentationSum (source : Source) (style : Style) (offset : Nat) : Nat :=
  match source.alignment? style.table offset with
  | none => 0
  | some alignment =>
      source.columnSum style.config.tabWidth alignment.pos + alignment.distance.toNat

theorem isWordOf_indentation (source : Source) (style : Style) (offset : Nat) :
    IsWordOf (source.indentation style offset) (source.indentationSum style offset) := by
  apply IsWordOf.of_wraps
  rw [indentation, indentationSum]
  cases source.alignment? style.table offset with
  | none => rfl
  | some alignment =>
      simp only [UInt32.ofNat_add, UInt32.ofNat_toNat, (source.isWordOf_column _ _).wraps]

/-- Equal sums are computed to equal columns. -/
theorem indentation_congr {source other : Source} {style : Style} {offset pos : Nat}
    (same : source.indentationSum style offset = other.indentationSum style pos) :
    source.indentation style offset = other.indentation style pos := by
  rw [(source.isWordOf_indentation style offset).wraps, same,
    (other.isWordOf_indentation style pos).wraps]

end Source

end SchemeLayout
