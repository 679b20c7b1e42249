import SchemeLayout.Proofs.LineColumns
import SchemeLayout.Proofs.LineIndex
import SchemeLayout.Proofs.PassedLines

/-!
Columns counted in characters.

A column is computed from bytes: those that continue a character add nothing.  The
first byte of a character is the only one that does not continue it, so the bytes
between two offsets are as wide as the characters that start there, also where the
offsets lie inside characters.

In front of a line that a run has indented stand spaces only, one for each column.
-/

set_option autoImplicit false

namespace SchemeLayout

/-! ## The width of characters -/

/-- A tab is as wide as it is set, every other character has the width one. -/
def charColumns (tabWidth : UInt32) (char : Char) : Nat :=
  if char = '\t' then tabWidth.toNat else 1

def charsWidth (tabWidth : UInt32) : List Char → Nat
  | [] => 0
  | char :: rest => charColumns tabWidth char + charsWidth tabWidth rest

/-- Characters with the offsets of their first bytes. -/
def placedChars (offset : Nat) : List Char → List (Nat × Char)
  | [] => []
  | char :: rest => (offset, char) :: placedChars (offset + char.utf8Size) rest

/-- The characters that start between two offsets. -/
def charsBetween (start stop : Nat) (placed : List (Nat × Char)) : List Char :=
  (placed.filter fun char => start ≤ char.1 ∧ char.1 < stop).map Prod.snd

/-- The width of the characters of a string that start between two offsets. -/
def widthBetween (tabWidth : UInt32) (text : String) (start stop : Nat) : Nat :=
  charsWidth tabWidth (charsBetween start stop (placedChars 0 text.toList))

theorem isContinuation_ofNat {value : Nat} (isByte : value < 256) :
    isContinuation (UInt8.ofNat value) = decide (0x80 ≤ value ∧ value < 0xC0) := by
  have same : (UInt8.ofNat value).toNat = value := by simp [Nat.mod_eq_of_lt isByte]
  simp only [isContinuation, UInt8.le_iff_toNat_le, UInt8.lt_iff_toNat_lt, same, Bool.decide_and]
  rfl

theorem isContinuation_tail (value : Nat) :
    isContinuation (UInt8.ofNat (value % 64 + 128)) = true := by
  rw [isContinuation_ofNat (by omega), decide_eq_true (by omega)]

/-- All bytes of a character continue it, except for the first one. -/
theorem exists_lead_continuations (char : Char) :
    ∃ lead tail, String.utf8EncodeChar char = lead :: tail ∧ isContinuation lead = false ∧
      ∀ byte ∈ tail, isContinuation byte = true := by
  simp only [String.utf8EncodeChar]
  repeat' split
  all_goals
    refine ⟨_, _, rfl, ?_, ?_⟩
    · rw [isContinuation_ofNat (by omega), decide_eq_false (by omega)]
    · simp only [List.mem_cons, List.not_mem_nil, forall_eq_or_imp, isContinuation_tail,
        false_implies, implies_true, and_self]

theorem byteWidth_lead {char : Char} {lead : UInt8} {tail : Bytes}
    (isChar : String.utf8EncodeChar char = lead :: tail) (starts : isContinuation lead = false)
    (tabWidth : UInt32) : (byteWidth tabWidth lead).toNat = charColumns tabWidth char := by
  have sameTab : lead = tab ↔ char = '\t' := by
    constructor
    · rintro rfl
      have member : tab ∈ String.utf8EncodeChar char := by simp [isChar]
      exact eq_of_mem_utf8EncodeChar (by decide) rfl member
    · rintro rfl
      exact (List.cons.inj isChar).1.symm
  simp only [byteWidth, charColumns, starts, sameTab, Bool.false_eq_true, if_false]
  split <;> rfl

theorem bytesSum_of_continuations {bytes : Bytes}
    (continues : ∀ byte ∈ bytes, isContinuation byte = true) (tabWidth : UInt32) :
    bytesSum tabWidth bytes = 0 := by
  induction bytes with
  | nil => rfl
  | cons byte rest inductionHypothesis =>
      obtain ⟨first, others⟩ := List.forall_mem_cons.mp continues
      rw [bytesSum_cons, inductionHypothesis others, byteWidth, if_pos first]
      rfl

/-- A part of a character is as wide as the character if its first byte belongs to the part,
and has no width otherwise. -/
theorem bytesSum_utf8EncodeChar (tabWidth : UInt32) (char : Char) (start stop : Nat) :
    bytesSum tabWidth (((String.utf8EncodeChar char).take stop).drop start) =
      if start = 0 ∧ 0 < stop then charColumns tabWidth char else 0 := by
  obtain ⟨lead, tail, isChar, starts, continues⟩ := exists_lead_continuations char
  have nothing (first count : Nat) : bytesSum tabWidth ((tail.take count).drop first) = 0 :=
    bytesSum_of_continuations
      (fun byte member => continues byte (List.mem_of_mem_take (List.mem_of_mem_drop member)))
      tabWidth
  rw [isChar]
  cases stop with
  | zero => simp
  | succ stop =>
      rw [List.take_succ_cons]
      cases start with
      | zero =>
          have behind := nothing 0 stop
          rw [List.drop_zero] at behind ⊢
          rw [bytesSum_cons, behind, byteWidth_lead isChar starts]
          simp
      | succ start =>
          rw [List.drop_succ_cons, nothing]
          simp

/-- The bytes between two offsets are as wide as the characters that start there. -/
theorem bytesSum_utf8Bytes (tabWidth : UInt32) (chars : List Char) (offset start stop : Nat) :
    bytesSum tabWidth (((utf8Bytes chars).take (stop - offset)).drop (start - offset)) =
      charsWidth tabWidth (charsBetween start stop (placedChars offset chars)) := by
  induction chars generalizing offset with
  | nil => simp [utf8Bytes, placedChars, charsBetween, charsWidth]
  | cons char rest inductionHypothesis =>
      have size : (String.utf8EncodeChar char).length = char.utf8Size :=
        String.length_utf8EncodeChar char
      -- Where the first character is cut short, nothing is left of the others.
      have others : ((utf8Bytes rest).take (stop - offset - char.utf8Size)).drop
          (start - offset - ((String.utf8EncodeChar char).take (stop - offset)).length) =
            ((utf8Bytes rest).take (stop - (offset + char.utf8Size))).drop
              (start - (offset + char.utf8Size)) := by
        rw [Nat.sub_sub stop]
        by_cases cut : stop ≤ offset + char.utf8Size
        · rw [Nat.sub_eq_zero_of_le cut, List.take_zero, List.drop_nil, List.drop_nil]
        · rw [List.length_take, size, Nat.min_eq_right (by omega), Nat.sub_sub]
      have first : start - offset = 0 ∧ 0 < stop - offset ↔ start ≤ offset ∧ offset < stop := by
        omega
      rw [utf8Bytes_cons, List.take_append, List.drop_append, size, others, bytesSum_append,
        inductionHypothesis, bytesSum_utf8EncodeChar]
      simp only [first, placedChars, charsBetween, List.filter_cons]
      by_cases within : start ≤ offset ∧ offset < stop
      · simp [within, charsWidth]
      · simp [within]

/-! ## Columns -/

namespace Source

variable {source : Source}

theorem bytesSum_range (tabWidth : UInt32) (text : String) (start stop : Nat) :
    bytesSum tabWidth ((ofString text).range start stop) =
      widthBetween tabWidth text start stop := by
  rw [range, ← List.drop_take, widthBetween, ← bytesSum_utf8Bytes, ofString, bytes_ofBytes,
    encode_eq_utf8Bytes, Nat.sub_zero, Nat.sub_zero]

theorem range_append (source : Source) {start middle stop : Nat} (isBehind : start ≤ middle)
    (isBefore : middle ≤ stop) :
    source.range start middle ++ source.range middle stop = source.range start stop := by
  obtain ⟨first, rfl⟩ := Nat.exists_eq_add_of_le isBehind
  obtain ⟨second, rfl⟩ := Nat.exists_eq_add_of_le isBefore
  rw [range, range, range, Nat.add_assoc, Nat.add_sub_cancel_left, Nat.add_sub_cancel_left,
    ← Nat.add_assoc, Nat.add_sub_cancel_left, List.take_add, List.drop_drop]

theorem lineStart_le (source : Source) (offset : Nat) :
    source.lineStart offset ≤ min offset source.length := by
  obtain ⟨start, found, isBefore, _⟩ := (source.isLineOf_iff _ offset).mpr rfl
  rwa [lineStart, List.getD_eq_getElem?_getD, ← lineStartOf?, found, Option.getD_some]

/-- On one line, columns differ by the width of what stands between the offsets. -/
theorem columnSum_of_lineOf_eq (tabWidth : UInt32) {offset later : Nat} (isLater : offset ≤ later)
    (same : source.lineOf offset = source.lineOf later) :
    source.columnSum tabWidth later =
      source.columnSum tabWidth offset + bytesSum tabWidth (source.range offset later) := by
  have isBehind := Nat.le_trans (source.lineStart_le offset) (Nat.min_le_left _ _)
  rw [columnSum, columnSum, lineFront, lineFront, ← lineStart_congr same,
    ← source.range_append isBehind isLater, bytesSum_append]

theorem columnSum_eq_widthBetween (tabWidth : UInt32) (text : String) (offset : Nat) :
    (ofString text).columnSum tabWidth offset =
      widthBetween tabWidth text ((ofString text).lineStart (min offset (ofString text).length))
        (min offset (ofString text).length) := by
  have same : (ofString text).lineStart (min offset (ofString text).length) =
      (ofString text).lineStart offset := by
    rw [lineStart, lineOf, Nat.min_assoc, Nat.min_self, ← lineOf, ← lineStart]
  rw [same, ← bytesSum_range, range_min, columnSum, lineFront]

end Source

/-! ## Lines with new indentation -/

/-- Lines above stay lines in front of another rest that does not go on with their last
delimiter. -/
theorem textLines_textOf_append {bytes rest : Bytes} {above below : List TextLine}
    {line : TextLine} (split : textLines bytes = above ++ line :: below)
    (notFeed : rest.head? ≠ some lineFeed) :
    textLines (textOf above ++ rest) = above ++ textLines rest := by
  obtain ⟨first, others, isRest⟩ := exists_textLines_eq_cons rest
  have isLines := isLines_textLines bytes
  have isNew := isLines_textLines rest
  have text := textOf_textLines rest
  rw [split] at isLines
  rw [isRest] at isNew text
  have apart : first.bytes.head? ≠ some lineFeed := by
    rwa [← isNew.head?_textOf, text]
  have whole := isLines.replace isNew fun _ _ precedes => ⟨precedes.1, fun _ => apart⟩
  rw [isRest, ← textLines_textOf whole, textOf_append, text]

/-- A line that is not blank stays a line with new indentation, whatever follows it. -/
theorem exists_textLines_indented {bytes : Bytes} {above below : List TextLine} {line : TextLine}
    (split : textLines bytes = above ++ line :: below) (notBlank : line.body ≠ []) (width : Nat)
    (later : Bytes) :
    ∃ new others byte more,
      textLines (textOf above ++ ((line.indented width).bytes ++ later)) = above ++ new :: others ∧
      new.content = spaces width ++ byte :: more ∧ isIndentByte byte = false := by
  have isLines := isLines_textLines bytes
  rw [split] at isLines
  have unbroken := isLines.of_append.unbroken
  obtain ⟨byte, more, isBody⟩ := List.exists_cons_of_ne_nil notBlank
  have isContent : (line.indented width).content = spaces width ++ byte :: more := by
    rw [TextLine.indented, isBody]
  -- A line that is not blank does not start with a line feed, so it stays apart from a carriage
  -- return above it.
  have notFeed : ((line.indented width).bytes ++ later).head? ≠ some lineFeed := by
    have notEmpty : (line.indented width).bytes ≠ [] := by simp [TextLine.bytes, isContent]
    rw [List.head?_append, Option.or_of_isSome (by simpa using notEmpty)]
    intro isFeed
    exact notBlank (TextLine.body_eq_nil_of_head?_indented unbroken isFeed).1
  obtain ⟨rest, others, isRest⟩ :=
    exists_textLines_eq_cons ((line.indented width).delimiter ++ later)
  refine ⟨rest.extend (line.indented width).content, others, byte, more ++ rest.content, ?_, ?_,
    TextLine.not_isIndentByte_of_body isBody⟩
  · rw [textLines_textOf_append split notFeed, TextLine.bytes, List.append_assoc,
      textLines_content_append (unbroken.indented width), isRest, List.modifyHead_cons]
  · rw [TextLine.extend, isContent, List.append_assoc, List.cons_append]

namespace Source

/-- A line that is not blank starts here, with so many spaces and no other blanks. -/
structure IndentedBy (source : Source) (start width : Nat) : Prop where
  isStart : start ∈ source.starts
  isSpaces : source.range start (start + width) = spaces width
  indentRun_eq : source.indentRun start = width
  notBlank : start + width < source.lineEnd start

section Line

variable {source : Source} {above below : List TextLine} {line : TextLine} {width : Nat}
  {byte : UInt8} {more : Bytes} (split : textLines source.bytes = above ++ line :: below)
  (isContent : line.content = spaces width ++ byte :: more)

include split isContent

theorem indentedBy_of_content (notIndent : isIndentByte byte = false) :
    source.IndentedBy (textOf above).length width where
  isStart := List.mem_of_getElem? (lineStartOf?_of_textLines_eq split)
  isSpaces := by
    rw [range, Nat.add_sub_cancel_left, drop_start split, isContent, List.append_assoc,
      List.take_left' (length_spaces width)]
  indentRun_eq := by
    rw [indentRun_start split, isContent,
      List.takeWhile_append_of_pos fun _ => isIndentByte_of_mem_spaces,
      List.takeWhile_cons_of_neg (by simp [notIndent]), List.append_nil, length_spaces]
  notBlank := by
    rw [lineEnd_start split, isContent, List.length_append, length_spaces, List.length_cons]
    omega

theorem columnSum_behind_spaces (tabWidth : UInt32) :
    source.columnSum tabWidth ((textOf above).length + width) = width := by
  have front : line.bytes = spaces width ++ (byte :: more ++ line.delimiter) := by
    rw [TextLine.bytes, isContent, List.append_assoc]
  rw [columnSum_of_line split tabWidth (by simp [front]), front,
    List.take_left' (length_spaces width), bytesSum_spaces]

end Line

theorem Rewrites.exists_line {source : Source} {number start : Nat}
    (rewrites : source.Rewrites number start) :
    ∃ above line below, textLines source.bytes = above ++ line :: below ∧ above.length = number ∧
      (textOf above).length = start ∧ line.body ≠ [] := by
  have inText : number < (textLines source.bytes).length := by
    rw [← source.lineCount_eq]
    exact (List.getElem?_eq_some_iff.mp rewrites.found).1
  obtain ⟨above, line, below, split, rfl⟩ := exists_textLines_split inText
  have found := rewrites.found
  rw [lineStartOf?_of_textLines_eq split, Option.some.injEq] at found
  subst found
  refine ⟨above, line, below, split, rfl, rfl, ?_⟩
  exact fun isBlank => rewrites.notBlank ((blank_start_iff split).mpr isBlank)

end Source

section Run

variable {style : Style} {bytes : Bytes} {first last number start : Nat}

/-- A run leaves the lines that it has rewritten with the spaces written, and the first byte
behind them stands in the column of their number. -/
theorem indentedBy_reindent (inRange : first ≤ number) (isBefore : number < last)
    (rewrites : (Source.ofBytes (reindent style bytes first number)).Rewrites number start) :
    let width := (Source.ofBytes (reindent style bytes first number)).lineColumn style start
    let result := Source.ofBytes (reindent style bytes first last)
    result.IndentedBy start width ∧
      ∀ tabWidth, (result.column tabWidth (start + width)).toNat = width := by
  intro width result
  obtain ⟨above, line, below, split, rfl, rfl, notBlank⟩ := rewrites.exists_line
  obtain ⟨later, isResult, _⟩ := exists_reindent_eq split inRange isBefore
  rw [Source.newLine, rewrites.outside, if_neg (by decide)] at isResult
  obtain ⟨new, others, byte, more, lines, isContent, notIndent⟩ :=
    exists_textLines_indented split notBlank width later
  rw [← isResult, ← Source.bytes_ofBytes (reindent style bytes first last)] at lines
  refine ⟨Source.indentedBy_of_content lines isContent notIndent, ?_⟩
  intro tabWidth
  have behind := Source.columnSum_behind_spaces lines isContent tabWidth
  have isWord := result.isWordOf_column tabWidth ((textOf above).length + width)
  rw [behind] at isWord
  exact isWord.fits (Source.lineColumn_lt_size _ style _)

end Run

/-- Columns count characters.  The column of an offset is the width of the characters that
start on its line in front of it, so on one line columns differ by the width of the
characters that start in between; both are computed in words, and exact as long as the
column of the later offset fits one.  On a line that a run has rewritten, the column of the
first byte that is no blank is the number of the spaces written. -/
theorem column_counts_characters (text : String) (tabWidth : UInt32) :
    let source := Source.ofString text
    let width := fun offset =>
      widthBetween tabWidth text (source.lineStart (min offset source.length))
        (min offset source.length)
    (∀ offset, IsWordOf (source.column tabWidth offset) (width offset)) ∧
    (∀ offset later, offset ≤ later → source.lineOf offset = source.lineOf later →
      source.column tabWidth later =
          source.column tabWidth offset + .ofNat (widthBetween tabWidth text offset later) ∧
        (width later < UInt32.size →
          (source.column tabWidth later).toNat =
            (source.column tabWidth offset).toNat + widthBetween tabWidth text offset later)) ∧
    ∀ style first last number start, first ≤ number → number < last →
      (Source.ofBytes (reindent style source.bytes first number)).Rewrites number start →
        let written :=
          (Source.ofBytes (reindent style source.bytes first number)).lineColumn style start
        let result := Source.ofBytes (reindent style source.bytes first last)
        result.IndentedBy start written ∧
          (result.column tabWidth (start + result.indentRun start)).toNat = written := by
  intro source width
  have isWidth (offset : Nat) : source.columnSum tabWidth offset = width offset :=
    Source.columnSum_eq_widthBetween tabWidth text offset
  have isWord (offset : Nat) : IsWordOf (source.column tabWidth offset) (width offset) := by
    rw [← isWidth]
    exact source.isWordOf_column tabWidth offset
  refine ⟨isWord, ?_, ?_⟩
  · intro offset later isLater same
    have adds := Source.columnSum_of_lineOf_eq tabWidth isLater same
    rw [isWidth, isWidth, Source.bytesSum_range] at adds
    refine ⟨?_, ?_⟩
    · rw [(isWord later).wraps, adds, UInt32.ofNat_add, (isWord offset).wraps]
    · intro inWord
      rw [(isWord later).fits inWord, (isWord offset).fits (by omega), adds]
  · intro style first last number start inRange isBefore rewrites
    obtain ⟨indented, columns⟩ := indentedBy_reindent inRange isBefore rewrites
    refine ⟨indented, ?_⟩
    rw [indented.indentRun_eq]
    exact columns tabWidth

/-- Offsets 2 and 5 lie inside characters of two bytes, and a tab stands between them.  The
second line is set in below the argument, and the third is left alone.  Two tabs that are
half as wide as a word can count lead back to the first column. -/
theorem column_counts_wide_characters :
    let text := "(λ\té\r\n x\ry)"
    let source := Source.ofString text
    let result := Source.ofBytes (reindent {} source.bytes 1 2)
    (source.column 8 5).toNat = 11 ∧ (source.column 8 5).toNat = widthBetween 8 text 0 5 ∧
      (source.column 8 5).toNat = (source.column 8 2).toNat + widthBetween 8 text 2 5 ∧
      result.bytes = encode "(λ\té\r\n          x\ry)" ∧
      (result.column 8 (8 + result.indentRun 8)).toNat = 10 ∧
      (Source.ofString "\t\t").column 2147483648 2 = 0 := by
  intro text source result
  obtain ⟨counts, adds, columns⟩ := column_counts_characters text 8
  have rewrites : (Source.ofBytes (reindent {} source.bytes 1 1)).Rewrites 1 8 :=
    ⟨by decide +kernel, by decide +kernel, by decide +kernel⟩
  have width : (Source.ofBytes (reindent {} source.bytes 1 1)).lineColumn {} 8 = 10 := by
    decide +kernel
  refine ⟨by decide +kernel, (counts 5).fits (by decide +kernel),
    (adds 2 5 (by decide) (by decide +kernel)).2 (by decide +kernel), by decide +kernel, ?_, ?_⟩
  · rw [← width]
    exact (columns {} 1 2 1 8 (by decide) (by decide) rewrites).2
  · rw [((column_counts_characters "\t\t" 2147483648).1 2).wraps]
    decide +kernel

end SchemeLayout
