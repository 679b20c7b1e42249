import SchemeLayout.Proofs.ColumnSums
import SchemeLayout.Proofs.LexerRun
import SchemeLayout.Proofs.Lines
import SchemeLayout.Proofs.TextAbove

/-!
Columns on one line of a text.

The column of an offset is the width of what stands on its line in front of it, so
on one line columns never decrease, and they increase behind a bracket.
-/

set_option autoImplicit false

namespace SchemeLayout

/-! ## Widths -/

theorem bytesSum_take_le (tabWidth : UInt32) (bytes : Bytes) {short long : Nat}
    (shorter : short ≤ long) :
    bytesSum tabWidth (bytes.take short) ≤ bytesSum tabWidth (bytes.take long) := by
  obtain ⟨more, rfl⟩ := Nat.exists_eq_add_of_le shorter
  rw [List.take_add, bytesSum_append]
  exact Nat.le_add_right _ _

theorem bytesSum_take_succ {bytes : Bytes} {index : Nat} {byte : UInt8}
    (found : bytes[index]? = some byte) (tabWidth : UInt32) :
    bytesSum tabWidth (bytes.take (index + 1)) =
      bytesSum tabWidth (bytes.take index) + (byteWidth tabWidth byte).toNat := by
  rw [List.take_add_one, found, bytesSum_append]
  simp

theorem byteWidth_of_opening {byte : UInt8} (isOpening : ByteRole.of byte = .opening)
    (tabWidth : UInt32) : byteWidth tabWidth byte = 1 := by
  have bracket : ∀ byte, ByteRole.of byte = .opening → byte = 0x28 ∨ byte = 0x5B :=
    forall_byte (by decide +kernel)
  rcases bracket byte isOpening with rfl | rfl <;> rfl

/-! ## Lines -/

theorem le_of_mem_lineOffsets {offset start : Nat} {lines : List TextLine}
    (member : start ∈ lineOffsets offset lines) : offset ≤ start := by
  induction lines generalizing offset with
  | nil => contradiction
  | cons line lines inductionHypothesis =>
      rcases List.mem_cons.mp member with rfl | later
      · exact Nat.le_refl _
      · exact Nat.le_of_add_right_le (inductionHypothesis later)

namespace Source

variable {source : Source} {line : TextLine} {above below : List TextLine}

section Line

variable (split : textLines source.bytes = above ++ line :: below)

include split

theorem lineStart_of_line {index : Nat} (onLine : index < line.bytes.length) :
    source.lineStart ((textOf above).length + index) = (textOf above).length := by
  have within : (textOf above).length + index ≤ source.length := by
    rw [length, bytes_eq_of_textLines_eq split, List.length_append, List.length_append]
    omega
  have nothingBelow : (lineOffsets ((textOf above).length + line.bytes.length) below).filter
      (· ≤ (textOf above).length + index) = [] := by
    rw [List.filter_eq_nil_iff]
    intro start member
    have bound := le_of_mem_lineOffsets member
    simp only [decide_eq_true_eq]
    omega
  rw [source.lineStart_eq within, ← source.starts_eq, starts_eq_of_textLines_eq split,
    List.filter_append, List.filter_cons_of_pos (by simp), nothingBelow, List.getLastD_concat]

/-- The column of an offset is the width of what stands on its line in front of it. -/
theorem columnSum_of_line (tabWidth : UInt32) {index : Nat} (onLine : index < line.bytes.length) :
    source.columnSum tabWidth ((textOf above).length + index) =
      bytesSum tabWidth (line.bytes.take index) := by
  rw [columnSum, lineFront, lineStart_of_line split onLine, range, Nat.add_sub_cancel_left,
    bytes_eq_of_textLines_eq split, List.drop_left,
    List.take_append_of_le_length (Nat.le_of_lt onLine)]

/-- What follows a bracket on its line stands further right. -/
theorem columnSum_lt_of_opening (tabWidth : UInt32) {start index : Nat}
    (isOpening : source.classes[(textOf above).length + start]? = some .opening)
    (isLater : start < index) (onLine : index < line.bytes.length) :
    source.columnSum tabWidth ((textOf above).length + start) <
      source.columnSum tabWidth ((textOf above).length + index) := by
  have startOnLine := Nat.lt_trans isLater onLine
  rw [source.classes_eq] at isOpening
  obtain ⟨byte, found, isBracket⟩ := exists_opening_of_classify isOpening
  rw [bytes_eq_of_textLines_eq split, List.getElem?_append_right (Nat.le_add_right _ _),
    Nat.add_sub_cancel_left, List.getElem?_append_left startOnLine] at found
  rw [columnSum_of_line split tabWidth startOnLine, columnSum_of_line split tabWidth onLine]
  calc bytesSum tabWidth (line.bytes.take start)
      < bytesSum tabWidth (line.bytes.take start) + (byteWidth tabWidth byte).toNat := by
        rw [byteWidth_of_opening isBracket]
        exact Nat.lt_succ_self _
    _ = bytesSum tabWidth (line.bytes.take (start + 1)) :=
        (bytesSum_take_succ found tabWidth).symm
    _ ≤ bytesSum tabWidth (line.bytes.take index) := bytesSum_take_le tabWidth _ isLater

end Line

end Source

end SchemeLayout
