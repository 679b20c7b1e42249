import SchemeLayout.Proofs.Characters
import SchemeLayout.Proofs.LineLayout

/-!
The line index of a string.

`SplitsInto` says what it is to cut a string into its lines: contents and
delimiters in turn are the string, a delimiter ends each line but the last, and
none stands within a line.  Delimiters are characters of one byte, so the lines
that are cut off byte by byte consist of whole characters.

Every offset, inside a delimiter, inside a character or behind the string, lies
on exactly one line, and the lookups give the start, the end and the text of it.
-/

set_option autoImplicit false

namespace SchemeLayout

/-! ## The lines of a string -/

/-- A line of a string: what stands on it, and the delimiter that ends it. -/
structure StringLine where
  content : String
  delimiter : String
  deriving DecidableEq, Repr

namespace StringLine

def text (line : StringLine) : String := line.content ++ line.delimiter

def encoded (line : StringLine) : TextLine := ⟨encode line.content, encode line.delimiter⟩

/-- The string with these lines. -/
def join (lines : List StringLine) : String := .join (lines.map text)

theorem bytes_encoded (line : StringLine) : line.encoded.bytes = encode line.text := by
  rw [text, encode_append]
  rfl

theorem encode_join (lines : List StringLine) : encode (join lines) = textOf (lines.map encoded) := by
  induction lines with
  | nil => rfl
  | cons line lines inductionHypothesis =>
      rw [List.map_cons, textOf_cons, bytes_encoded, ← inductionHypothesis, ← encode_append, join,
        List.map_cons, String.join_cons, join]

end StringLine

/-- These are the lines of a string. -/
structure SplitsInto (text : String) (lines : List StringLine) : Prop where
  joined : StringLine.join lines = text
  unbroken : ∀ line ∈ lines, '\n' ∉ line.content.toList ∧ '\r' ∉ line.content.toList
  ended : ∀ above line next below, lines = above ++ line :: next :: below →
    line.delimiter ∈ lineDelimiters ∧
      (line.delimiter = "\r" → (StringLine.join (next :: below)).toList.head? ≠ some '\n')
  last : ∀ above line, lines = above ++ [line] → line.delimiter = ""

theorem encode_inj {left right : String} (same : encode left = encode right) : left = right := by
  rw [← decode_encode left, same, decode_encode]

theorem utf8EncodeChar_feed : String.utf8EncodeChar '\n' = [lineFeed] := by decide

theorem utf8EncodeChar_return : String.utf8EncodeChar '\r' = [carriageReturn] := by decide

theorem eq_feed_of_mem {char : Char} (member : lineFeed ∈ String.utf8EncodeChar char) :
    char = '\n' :=
  eq_of_mem_utf8EncodeChar (by decide) rfl member

theorem eq_return_of_mem {char : Char} (member : carriageReturn ∈ String.utf8EncodeChar char) :
    char = '\r' :=
  eq_of_mem_utf8EncodeChar (by decide) rfl member

/-- The lines of a string consist of whole characters. -/
theorem exists_encoded_eq (chars : List Char) :
    ∃ lines : List StringLine, lines.map StringLine.encoded = textLines (utf8Bytes chars) := by
  induction chars with
  | nil => exact ⟨[⟨"", ""⟩], by decide⟩
  | cons char rest inductionHypothesis =>
      obtain ⟨lines, split⟩ := inductionHypothesis
      rw [utf8Bytes_cons]
      by_cases isFeed : char = '\n'
      · refine ⟨⟨"", "\n"⟩ :: lines, ?_⟩
        rw [isFeed, utf8EncodeChar_feed, List.singleton_append, textLines_feed, List.map_cons, split]
        rfl
      by_cases isReturn : char = '\r'
      · rw [isReturn, utf8EncodeChar_return, List.singleton_append]
        by_cases followed : (utf8Bytes rest).head? = some lineFeed
        · -- The line feed has already been split off as a delimiter of its own.
          obtain ⟨more, isRest⟩ := List.head?_eq_some_iff.mp followed
          rw [isRest, textLines_feed] at split
          obtain ⟨_, below, rfl, _, isBelow⟩ := List.map_eq_cons_iff.mp split
          refine ⟨⟨"", "\r\n"⟩ :: below, ?_⟩
          rw [isRest, textLines_returnFeed, List.map_cons, isBelow]
          rfl
        · refine ⟨⟨"", "\r"⟩ :: lines, ?_⟩
          rw [textLines_return followed, List.map_cons, split]
          rfl
      · have unbroken : ∀ byte ∈ String.utf8EncodeChar char,
            byte ≠ lineFeed ∧ byte ≠ carriageReturn := by
          intro byte member
          constructor
          · rintro rfl
            exact isFeed (eq_feed_of_mem member)
          · rintro rfl
            exact isReturn (eq_return_of_mem member)
        obtain ⟨line, below, isSplit⟩ := exists_textLines_eq_cons (utf8Bytes rest)
        rw [isSplit] at split
        obtain ⟨first, others, rfl, rfl, rfl⟩ := List.map_eq_cons_iff.mp split
        refine ⟨⟨.ofList [char] ++ first.content, first.delimiter⟩ :: others, ?_⟩
        have encoded : encode (.ofList [char]) = String.utf8EncodeChar char := by
          rw [encode_eq_utf8Bytes, String.toList_ofList, utf8Bytes_cons]
          exact List.append_nil _
        rw [textLines_content_append unbroken, isSplit, List.map_cons, List.modifyHead_cons,
          StringLine.encoded, encode_append, encoded]
        rfl

theorem mem_encode_of_mem {text : String} {char : Char} {byte : UInt8}
    (isByte : String.utf8EncodeChar char = [byte]) (member : char ∈ text.toList) :
    byte ∈ encode text := by
  rw [encode_eq_utf8Bytes]
  exact List.mem_flatMap.mpr ⟨char, member, by simp [isByte]⟩

section Encoded

variable {text : String} {lines : List StringLine}
  (isEncoded : lines.map StringLine.encoded = textLines (encode text))

include isEncoded

theorem isLines_encoded {above below : List StringLine} {line : StringLine}
    (split : lines = above ++ line :: below) :
    IsLines (line.encoded :: below.map StringLine.encoded) := by
  have isLines := isLines_textLines (encode text)
  rw [← isEncoded, split, List.map_append, List.map_cons] at isLines
  exact isLines.of_append

theorem splitsInto_of_encoded : SplitsInto text lines where
  joined := by
    apply encode_inj
    rw [StringLine.encode_join, isEncoded, textOf_textLines]
  unbroken := by
    intro line member
    obtain ⟨above, below, split⟩ := List.append_of_mem member
    have unbroken := (isLines_encoded isEncoded split).unbroken
    constructor
    · intro isFeed
      exact (unbroken _ (mem_encode_of_mem utf8EncodeChar_feed isFeed)).1 rfl
    · intro isReturn
      exact (unbroken _ (mem_encode_of_mem utf8EncodeChar_return isReturn)).2 rfl
  ended := by
    intro above line next below split
    have isLines := isLines_encoded isEncoded split
    obtain ⟨isDelimiter, apart⟩ : line.encoded.Precedes next.encoded := by
      cases isLines with
      | cons _ precedes _ => exact precedes
    constructor
    · rcases isDelimiter with isFeed | isReturn | isBoth
      · have isText : line.delimiter = "\n" := encode_inj isFeed
        simp [isText, lineDelimiters]
      · have isText : line.delimiter = "\r" := encode_inj isReturn
        simp [isText, lineDelimiters]
      · have isText : line.delimiter = "\r\n" := encode_inj isBoth
        simp [isText, lineDelimiters]
    · intro isReturn isFeed
      have notFeed := apart (show encode line.delimiter = [carriageReturn] by rw [isReturn]; rfl)
      have isNext : IsLines (next.encoded :: below.map StringLine.encoded) := by
        cases isLines with
        | cons _ _ isNext => exact isNext
      rw [← isNext.head?_textOf, ← List.map_cons, ← StringLine.encode_join, encode_eq_utf8Bytes]
        at notFeed
      obtain ⟨more, isText⟩ := List.head?_eq_some_iff.mp isFeed
      rw [isText, utf8Bytes_cons, utf8EncodeChar_feed] at notFeed
      exact notFeed rfl
  last := by
    intro above line split
    cases isLines_encoded isEncoded split with
    | last _ ended => exact encode_inj ended

end Encoded

/-! ## The line of an offset -/

/-- In an increasing list, the entries up to a bound are counted off from the front. -/
theorem lt_countP_iff {starts : List Nat} (sorted : starts.Pairwise (· < ·)) {number offset : Nat} :
    number < starts.countP (· ≤ offset) ↔ ∃ start, starts[number]? = some start ∧ start ≤ offset := by
  induction starts generalizing number with
  | nil => simp
  | cons start starts inductionHypothesis =>
      obtain ⟨least, sortedRest⟩ := List.pairwise_cons.mp sorted
      by_cases within : start ≤ offset
      · cases number with
        | zero => simp [within]
        | succ number =>
            rw [List.countP_cons_of_pos (by simpa using within), Nat.add_lt_add_iff_right,
              List.getElem?_cons_succ]
            exact inductionHypothesis sortedRest
      · have beyond : ∀ other ∈ start :: starts, ¬ other ≤ offset := by
          intro other member
          rcases List.mem_cons.mp member with rfl | later
          · exact within
          · have := least other later
            omega
        have nothing : (start :: starts).countP (· ≤ offset) = 0 := by
          rw [List.countP_eq_zero]
          simpa using beyond
        rw [nothing]
        constructor
        · intro impossible
          omega
        · rintro ⟨other, found, isBefore⟩
          exact absurd isBefore (beyond other (List.mem_of_getElem? found))

namespace Source

/-- The line of this number starts at or before the offset, or the end of the text if that
comes first, and the next line, if there is one, starts behind it. -/
def IsLineOf (source : Source) (number offset : Nat) : Prop :=
  ∃ start, source.lineStartOf? number = some start ∧ start ≤ min offset source.length ∧
    ∀ next, source.lineStartOf? (number + 1) = some next → min offset source.length < next

theorem isLineOf_iff (source : Source) (number offset : Nat) :
    source.IsLineOf number offset ↔ number = source.lineOf offset := by
  have sorted := pairwise_lineStarts source.bytes
  rw [← source.starts_eq] at sorted
  have positive : 0 < source.starts.countP (· ≤ min offset source.length) := by
    simp [source.starts_eq, lineStarts]
  have isLast : number = source.lineOf offset ↔
      number < source.starts.countP (· ≤ min offset source.length) ∧
        ¬ number + 1 < source.starts.countP (· ≤ min offset source.length) := by
    rw [lineOf, lineAt]
    omega
  rw [isLast, lt_countP_iff sorted, lt_countP_iff sorted]
  simp only [IsLineOf, lineStartOf?, not_exists, not_and, Nat.not_le]
  constructor
  · rintro ⟨start, found, isBefore, isBehind⟩
    exact ⟨⟨start, found, isBefore⟩, isBehind⟩
  · rintro ⟨⟨start, found, isBefore⟩, isBehind⟩
    exact ⟨start, found, isBefore, isBehind⟩

section SameLine

variable {source : Source} {offset other : Nat} (same : source.lineOf offset = source.lineOf other)

include same

theorem lineStart_congr : source.lineStart offset = source.lineStart other := by
  rw [lineStart, same, lineStart]

theorem lineEnd_congr : source.lineEnd offset = source.lineEnd other := by
  rw [lineEnd, same, lineStart_congr same, lineEnd]

end SameLine

section Line

variable {source : Source} {line : TextLine} {above below : List TextLine} {offset : Nat}
  (split : textLines source.bytes = above ++ line :: below)
  (isLine : source.lineOf offset = above.length)

include split isLine

theorem lineStart_of_lineOf : source.lineStart offset = (textOf above).length := by
  rw [lineStart_congr (isLine.trans (lineOf_start split).symm), lineStart_start split]

theorem lineEnd_of_lineOf :
    source.lineEnd offset = (textOf above).length + line.content.length := by
  rw [lineEnd_congr (isLine.trans (lineOf_start split).symm), lineEnd_start split]

theorem lineBytes_of_lineOf : source.lineBytes offset = line.content := by
  rw [lineBytes, lineStart_of_lineOf split isLine, lineEnd_of_lineOf split isLine, range,
    Nat.add_sub_cancel_left, bytes_eq_of_textLines_eq split, List.drop_left, TextLine.bytes,
    List.append_assoc, List.take_left]

end Line

end Source

theorem exists_line_of_offset {text : String} {lines : List StringLine}
    (isEncoded : lines.map StringLine.encoded = textLines (encode text)) (offset : Nat) :
    ∃ above line below, lines = above ++ line :: below ∧
      (Source.ofString text).lineOf offset = above.length ∧
      (Source.ofString text).lineStartOf? above.length =
        some ((Source.ofString text).lineStart offset) ∧
      (Source.ofString text).lineStart offset = (encode (StringLine.join above)).length ∧
      (Source.ofString text).lineEnd offset =
        (Source.ofString text).lineStart offset + (encode line.content).length ∧
      (Source.ofString text).lineText offset = line.content := by
  have inText := (Source.ofString text).lineOf_lt_lineCount offset
  rw [Source.lineCount_eq] at inText
  obtain ⟨front, encoded, back, isSplit, length⟩ := exists_textLines_split inText
  obtain ⟨above, rest, rfl, rfl, isRest⟩ := List.map_eq_append_iff.mp (isEncoded.trans isSplit)
  obtain ⟨line, below, rfl, rfl, rfl⟩ := List.map_eq_cons_iff.mp isRest
  have start := Source.lineStart_of_lineOf isSplit length.symm
  have found := Source.lineStartOf?_of_textLines_eq isSplit
  have isText := Source.lineBytes_of_lineOf isSplit length.symm
  rw [List.length_map] at length
  rw [← start, List.length_map] at found
  refine ⟨above, line, below, rfl, length.symm, found, ?_, ?_, ?_⟩
  · rw [start, StringLine.encode_join]
  · rw [start, Source.lineEnd_of_lineOf isSplit (by rw [List.length_map, length])]
    rfl
  · rw [Source.lineText, Source.slice, ← Source.lineBytes, isText]
    exact decode_encode line.content

/-- The line index cuts every string into its lines.  The starts increase from zero, each
offset lies on exactly one line, and its lookups give the start, the end and the text of
that line. -/
theorem splitsInto_lineIndex (text : String) :
    let source := Source.ofString text
    source.starts.head? = some 0 ∧ source.starts.Pairwise (· < ·) ∧
    ∃ lines, SplitsInto text lines ∧ source.lineCount = lines.length ∧
      ∀ offset, (∀ number, source.IsLineOf number offset ↔ number = source.lineOf offset) ∧
        ∃ above line below, lines = above ++ line :: below ∧
          source.lineOf offset = above.length ∧
          source.lineStartOf? above.length = some (source.lineStart offset) ∧
          source.lineStart offset = (encode (StringLine.join above)).length ∧
          source.lineEnd offset = source.lineStart offset + (encode line.content).length ∧
          source.lineText offset = line.content := by
  intro source
  obtain ⟨lines, isEncoded⟩ := exists_encoded_eq text.toList
  rw [← encode_eq_utf8Bytes] at isEncoded
  have count : source.lineCount = lines.length := by
    rw [source.lineCount_eq, ← List.length_map (f := StringLine.encoded), isEncoded]
    rfl
  refine ⟨rfl, pairwise_lineStarts _, lines, splitsInto_of_encoded isEncoded, count, ?_⟩
  intro offset
  exact ⟨fun number => source.isLineOf_iff number offset, exists_line_of_offset isEncoded offset⟩

end SchemeLayout
