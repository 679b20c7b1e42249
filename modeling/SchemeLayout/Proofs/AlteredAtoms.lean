import SchemeLayout.Proofs.PassedLines
import SchemeLayout.Proofs.SignificantBytes

/-!
What indenting does to the tokens of a text.

Strings and block comments that reach over several lines are left alone, but an
atom can reach over a line break as well: between bars, or as the character literal
that names the line break.  Between bars the indentation belongs to the atom, and
behind such a literal it decides whether the line continues the atom.  Everywhere
else the significant bytes and their classes stay as they are.
-/

set_option autoImplicit false

namespace SchemeLayout

/-! ## One line -/

namespace TextLine

def indent (line : TextLine) : Bytes := line.content.takeWhile isIndentByte

/-- What stands behind the indentation, with the delimiter. -/
def remainder (line : TextLine) : Bytes := line.body ++ line.delimiter

theorem bytes_eq (line : TextLine) : line.bytes = line.indent ++ line.remainder := by
  rw [bytes, indent, remainder, body, ← List.append_assoc, List.takeWhile_append_dropWhile]

theorem bytes_indented (line : TextLine) (column : Nat) :
    (line.indented column).bytes = spaces column ++ line.remainder := by
  rw [bytes, indented, remainder, List.append_assoc]

end TextLine

theorem spaces_eq_nil_iff {column : Nat} : spaces column = [] ↔ column = 0 :=
  List.replicate_eq_nil_iff _

theorem ByteRole.of_isIndentByte {byte : UInt8} (isIndent : isIndentByte byte = true) :
    ByteRole.of byte = .blank := by
  rw [isIndentByte, Bool.or_eq_true, beq_iff_eq, beq_iff_eq] at isIndent
  rcases isIndent with rfl | rfl <;> rfl

theorem TextLine.isIndentByte_of_mem_indent {line : TextLine} {byte : UInt8}
    (member : byte ∈ line.indent) : isIndentByte byte = true :=
  List.all_eq_true.mp List.all_takeWhile byte member

theorem ByteRole.of_mem_indent {line : TextLine} :
    ∀ byte ∈ line.indent, ByteRole.of byte = .blank :=
  fun _ member => ByteRole.of_isIndentByte (TextLine.isIndentByte_of_mem_indent member)

theorem ByteRole.of_mem_spaces {column : Nat} :
    ∀ byte ∈ spaces column, ByteRole.of byte = .blank :=
  fun _ member => ByteRole.of_isIndentByte (isIndentByte_of_mem_spaces member)

namespace IsLines

variable {line : TextLine} {below : List TextLine} (isLines : IsLines (line :: below))

include isLines

theorem remainder_ended :
    below = [] ∨ (line.remainder.map ByteRole.of).getLast? = some .lineBreak := by
  cases isLines with
  | last => exact .inl rfl
  | cons _ precedes _ =>
      right
      rcases precedes.1 with isDelimiter | isDelimiter | isDelimiter <;>
        simp [TextLine.remainder, isDelimiter] <;> rfl

/-- The indentation of a line is all that stands in front of its remainder. -/
theorem not_isIndentByte_remainder {rest : Bytes} (isEnd : below = [] → rest = []) :
    ∀ byte ∈ (line.remainder ++ rest).head?, isIndentByte byte = false := by
  intro byte isFirst
  cases isBody : line.body with
  | cons head body =>
      rw [TextLine.remainder, isBody] at isFirst
      cases isFirst
      exact TextLine.not_isIndentByte_of_body isBody
  | nil =>
      rw [TextLine.remainder, isBody, List.nil_append] at isFirst
      cases isDelimiter : line.delimiter with
      | cons head others =>
          rw [isDelimiter] at isFirst
          cases isFirst
          have member : byte ∈ line.delimiter := by simp [isDelimiter]
          rcases isLines.mem_delimiter member with rfl | rfl <;> rfl
      | nil =>
          have isLast := isLines.remainder_ended.resolve_right
            (by simp [TextLine.remainder, isBody, isDelimiter])
          simp [isDelimiter, isEnd isLast] at isFirst

end IsLines

/-- To set a line in at `column` changes what is significant, when the lexer comes to it
in the given state: between bars with every other indentation; behind a character
literal that names the line break if the line gets or loses its indentation and is not
read alike as the rest of the literal and by itself. -/
inductive ReadsOtherwise (line : TextLine) (column : Nat) : LexState → Prop where
  | inBars : line.indent ≠ spaces column → ReadsOtherwise line column .atomBar
  | behindCharacter : (line.indent = [] ↔ column ≠ 0) →
      classifyFrom .atom (line.remainder.map .of) ≠
        classifyFrom .between (line.remainder.map .of) →
      ReadsOtherwise line column .atom

/-- Between bars, the blanks in front of the first other byte are significant. -/
theorem takeWhile_significantFrom_atomBar {blanks rest : Bytes}
    (allIndent : ∀ byte ∈ blanks, isIndentByte byte = true)
    (stops : ∀ byte ∈ rest.head?, isIndentByte byte = false) :
    ((significantFrom .atomBar (blanks ++ rest)).takeWhile (isIndentByte ·.1)).map Prod.fst =
      blanks := by
  have allBlank : ∀ byte ∈ blanks, ByteRole.of byte = .blank :=
    fun byte member => ByteRole.of_isIndentByte (allIndent byte member)
  have noMore : (significantFrom .atomBar rest).takeWhile (isIndentByte ·.1) = [] := by
    have first := head?_significantFrom_atomBar rest
    cases isRest : significantFrom .atomBar rest with
    | nil => rfl
    | cons entry others =>
        rw [isRest, List.head?_cons, eq_comm, Option.map_eq_some_iff] at first
        obtain ⟨byte, isFirst, rfl⟩ := first
        exact List.takeWhile_cons_of_neg (by simp [stops byte isFirst])
  rw [significantFrom_atomBar_blanks allBlank, List.takeWhile_append_of_pos, noMore,
    List.append_nil, List.map_map]
  · exact List.map_id blanks
  · intro entry member
    obtain ⟨byte, isBlank, rfl⟩ := List.mem_map.mp member
    exact allIndent byte isBlank

section Line

variable {line : TextLine} {column : Nat} {below : List TextLine} {state : LexState}
  (isLines : IsLines (line :: below))

include isLines

/-- A line that does not read otherwise says the same with its new indentation. -/
theorem significantFrom_indented (known : state = .between ∨ state = .atom ∨ state = .atomBar)
    (kept : ¬ ReadsOtherwise line column state) :
    significantFrom state ((line.indented column).bytes ++ textOf below) =
      significantFrom state (line.bytes ++ textOf below) := by
  rw [line.bytes_eq, line.bytes_indented, List.append_assoc, List.append_assoc]
  rcases known with rfl | rfl | rfl
  · rw [significantFrom_between_blanks ByteRole.of_mem_spaces,
      significantFrom_between_blanks ByteRole.of_mem_indent]
  · have alike (changes : line.indent = [] ↔ column ≠ 0) :
        significantFrom .atom (line.remainder ++ textOf below) =
          significantFrom .between (line.remainder ++ textOf below) := by
      apply significantFrom_atom_eq_between
      · exact isLines.remainder_ended.imp_left (by rintro rfl; rfl)
      · exact Decidable.byContradiction fun differ => kept (.behindCharacter changes differ)
    rw [significantFrom_atom_blanks ByteRole.of_mem_spaces,
      significantFrom_atom_blanks ByteRole.of_mem_indent]
    simp only [spaces_eq_nil_iff]
    split
    next isZero =>
      split
      next => rfl
      next notEmpty => exact alike (by simp [isZero, notEmpty])
    next notZero =>
      split
      next isEmpty => exact (alike (by simp [isEmpty, notZero])).symm
      next => rfl
  · have same : line.indent = spaces column :=
      Decidable.byContradiction fun differ => kept (.inBars differ)
    rw [same]

/-- A line that reads otherwise says something else with its new indentation, whatever
becomes of the lines below. -/
theorem ReadsOtherwise.significantFrom_ne (otherwise : ReadsOtherwise line column state)
    {later : Bytes} (isLast : below = [] → later = []) :
    significantFrom state ((line.indented column).bytes ++ later) ≠
      significantFrom state (line.bytes ++ textOf below) := by
  intro same
  rw [line.bytes_eq, line.bytes_indented, List.append_assoc, List.append_assoc] at same
  have isEnd : below = [] → textOf below = [] := by
    rintro rfl
    rfl
  cases otherwise with
  | inBars differ =>
      have sameRun :=
        congrArg (fun entries => (entries.takeWhile (isIndentByte ·.1)).map Prod.fst) same
      rw [takeWhile_significantFrom_atomBar (fun _ => isIndentByte_of_mem_spaces)
          (isLines.not_isIndentByte_remainder isLast),
        takeWhile_significantFrom_atomBar (fun _ => TextLine.isIndentByte_of_mem_indent)
          (isLines.not_isIndentByte_remainder isEnd)] at sameRun
      exact differ sameRun.symm
  | behindCharacter changes differ =>
      have ended := isLines.remainder_ended.imp_left fun noneBelow =>
        And.intro (isLast noneBelow) (isEnd noneBelow)
      rw [significantFrom_atom_blanks ByteRole.of_mem_spaces,
        significantFrom_atom_blanks ByteRole.of_mem_indent] at same
      simp only [spaces_eq_nil_iff] at same
      by_cases isEmpty : line.indent = []
      · rw [if_neg (changes.mp isEmpty), if_pos isEmpty] at same
        exact differ (classifyFrom_eq_of_significantFrom_eq ended same).symm
      · have isZero : column = 0 :=
          Decidable.byContradiction fun notZero => isEmpty (changes.mpr notZero)
        rw [if_pos isZero, if_neg isEmpty] at same
        exact differ (classifyFrom_eq_of_significantFrom_eq ended same)

end Line

/-! ## A range of lines -/

/-- To indent line `number` alters an atom. -/
def AltersAtom (style : Style) (source : Source) (number : Nat) : Prop :=
  ∃ above line below, textLines source.bytes = above ++ line :: below ∧ above.length = number ∧
    ReadsOtherwise line (source.lineColumn style (textOf above).length)
      (stateBehind (textOf above))

section Step

variable {style : Style} {source : Source} {number : Nat}

theorem Source.insideLiteral_start {above below : List TextLine} {line : TextLine}
    (split : textLines source.bytes = above ++ line :: below) :
    source.insideLiteral (textOf above).length = (stateBehind (textOf above)).inLiteral := by
  have ended := endsWithBreak_textOf split
  rw [Source.insideLiteral_above (Source.bytes_eq_of_textLines_eq split) ended,
    Source.insideLiteral_eq_inLiteral ended]

/-- A step that alters no atom keeps what is significant. -/
theorem significant_reindentLine (kept : ¬ AltersAtom style source number) :
    (reindentLine style source number).significant = source.significant := by
  rw [Source.significant_eq, Source.significant_eq]
  by_cases inText : number < (textLines source.bytes).length
  · obtain ⟨above, line, below, split, isNumber⟩ := exists_textLines_split inText
    have isLines := isLines_textLines source.bytes
    rw [split] at isLines
    have ended := endsWithBreak_textOf split
    have text := Source.bytes_eq_of_textLines_eq split
    rw [← isNumber, bytes_reindentLine_of_textLines_eq split, Source.insideLiteral_start split]
    split
    next => rfl
    next outside =>
      rw [textOf_append, textOf_cons, text,
        significantFrom_between_append ended, significantFrom_between_append ended]
      congr 1
      apply significantFrom_indented isLines.of_append
      · exact stateBehind_cases ended (by simpa using outside)
      · intro otherwise
        exact kept ⟨above, line, below, split, isNumber, otherwise⟩
  · rw [bytes_reindentLine_of_length_le style (by omega)]

end Step

section Run

variable {style : Style} {bytes : Bytes} {first number last : Nat}

theorem significant_reindent
    (kept : ∀ number, first ≤ number → number < last →
      ¬ AltersAtom style (.ofBytes (reindent style bytes first number)) number) :
    (Source.ofBytes (reindent style bytes first last)).significant =
      (Source.ofBytes bytes).significant := by
  induction last with
  | zero => rw [reindent_of_le (Nat.zero_le first)]
  | succ last inductionHypothesis =>
      by_cases inRange : first ≤ last
      · have earlier := inductionHypothesis fun number inRange isBefore =>
          kept number inRange (Nat.lt_succ_of_lt isBefore)
        have step := significant_reindentLine (kept last inRange (Nat.lt_succ_self last))
        rw [reindent_succ style bytes inRange, Source.ofBytes_bytes, step, earlier]
      · rw [reindent_of_le (by omega)]

/-- A step that alters an atom cannot be made up for by the steps below. -/
theorem AltersAtom.significant_ne (inRange : first ≤ number) (isBefore : number < last)
    (alters : AltersAtom style (.ofBytes (reindent style bytes first number)) number) :
    (Source.ofBytes (reindent style bytes first last)).significant ≠
      (Source.ofBytes (reindent style bytes first number)).significant := by
  obtain ⟨above, line, below, split, rfl, otherwise⟩ := alters
  have isLines := isLines_textLines (reindent style bytes first above.length)
  rw [← Source.bytes_ofBytes (reindent style bytes first above.length), split] at isLines
  have ended := endsWithBreak_textOf split
  have text := Source.bytes_eq_of_textLines_eq split
  have outside : (stateBehind (textOf above)).inLiteral = false := by
    generalize stateBehind (textOf above) = state at otherwise
    cases otherwise <;> rfl
  obtain ⟨later, result, isLast⟩ := exists_reindent_eq split inRange isBefore
  rw [Source.newLine, Source.insideLiteral_start split, outside, if_neg Bool.false_ne_true] at result
  rw [Source.significant_eq, Source.significant_eq, text, Source.bytes_ofBytes, result,
    significantFrom_between_append ended, significantFrom_between_append ended]
  intro same
  exact otherwise.significantFrom_ne isLines.of_append isLast (List.append_cancel_left same)

/-- To indent a range of lines anew keeps the significant bytes and their classes, unless
it comes to a line inside the bars of an atom, or behind a character literal that names
the line break, and alters the atom. -/
theorem significant_reindent_iff (style : Style) (bytes : Bytes) (first last : Nat) :
    (Source.ofBytes (reindent style bytes first last)).significant =
        (Source.ofBytes bytes).significant ↔
      ∀ number, first ≤ number → number < last →
        ¬ AltersAtom style (.ofBytes (reindent style bytes first number)) number := by
  constructor
  · intro same number inRange isBefore alters
    -- The first such line is enough: up to it, nothing has changed.
    induction number using Nat.strongRecOn with
    | _ number inductionHypothesis =>
        have earlier : (Source.ofBytes (reindent style bytes first number)).significant =
            (Source.ofBytes bytes).significant :=
          significant_reindent fun other otherInRange isEarlier otherAlters =>
            inductionHypothesis other isEarlier otherInRange (Nat.lt_trans isEarlier isBefore)
              otherAlters
        exact alters.significant_ne inRange isBefore (same.trans earlier.symm)
  · exact significant_reindent

/-- The indentation of the second line belongs to the symbol, and is lost. -/
theorem significant_reindent_bars_ne :
    reindent {} (encode "|a\n  b|") 0 2 = encode "|a\nb|" ∧
      (Source.ofBytes (reindent {} (encode "|a\n  b|") 0 2)).significant ≠
        (Source.ofBytes (encode "|a\n  b|")).significant := by
  decide +kernel

-- Behind the character literal, the quote of the second line becomes a part of the atom.
example : (Source.ofBytes (reindent {} (encode "#\\\n 'b") 0 2)).classes =
    [.atom, .atom, .atom, .atom, .atom] := by
  decide +kernel

end Run

end SchemeLayout
