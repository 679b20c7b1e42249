import SchemeLayout.Layout.Reindent
import SchemeLayout.Proofs.Lines

/-!
What indenting anew does to the lines of a text.

One step gives new indentation to one line and leaves the others alone, with one
exception: a blank line between a carriage return and a line feed loses its
blanks, and the two delimiters become one.  From there on the lines are numbered
differently.  Nothing else can go wrong.
-/

set_option autoImplicit false

namespace SchemeLayout

theorem isIndentByte_of_mem_spaces {column : Nat} {byte : UInt8} (member : byte ∈ spaces column) :
    isIndentByte byte = true := by
  rw [List.eq_of_mem_replicate member]
  rfl

namespace TextLine

/-- What stands behind the indentation. -/
def body (line : TextLine) : Bytes := line.content.dropWhile isIndentByte

/-- The line with new indentation. -/
def indented (line : TextLine) (column : Nat) : TextLine :=
  { line with content := spaces column ++ line.body }

/-- The lines differ in their indentation only. -/
def SameBody (line other : TextLine) : Prop :=
  other.delimiter = line.delimiter ∧ other.body = line.body

theorem mem_content_of_mem_body {line : TextLine} {byte : UInt8} (member : byte ∈ line.body) :
    byte ∈ line.content :=
  (List.dropWhile_suffix isIndentByte).subset member

theorem not_isIndentByte_of_body {line : TextLine} {byte : UInt8} {more : Bytes}
    (isBody : line.body = byte :: more) : isIndentByte byte = false := by
  have stops := List.head?_dropWhile_not isIndentByte line.content
  rw [← body, isBody] at stops
  simpa using stops

@[simp] theorem body_indented (line : TextLine) (column : Nat) :
    (line.indented column).body = line.body := by
  simp only [body, indented]
  rw [List.dropWhile_append_of_pos fun _ => isIndentByte_of_mem_spaces]
  cases isBody : line.content.dropWhile isIndentByte with
  | nil => rfl
  | cons byte rest =>
      exact List.dropWhile_cons_of_neg (by simp [not_isIndentByte_of_body isBody])

theorem sameBody_indented (line : TextLine) (column : Nat) : line.SameBody (line.indented column) :=
  ⟨rfl, body_indented line column⟩

theorem Unbroken.indented {line : TextLine} (unbroken : line.Unbroken) (column : Nat) :
    (line.indented column).Unbroken := by
  intro byte member
  rcases List.mem_append.mp member with isSpace | inBody
  · rw [List.eq_of_mem_replicate isSpace]
    decide
  · exact unbroken byte (mem_content_of_mem_body inBody)

theorem body_eq_nil_of_head?_indented {line : TextLine} (unbroken : line.Unbroken) {column : Nat}
    (isFeed : (line.indented column).bytes.head? = some lineFeed) :
    line.body = [] ∧ line.delimiter.head? = some lineFeed := by
  simp only [bytes, indented] at isFeed
  cases column with
  | succ column =>
      rw [spaces, List.replicate_succ, List.cons_append, List.cons_append, List.head?_cons,
        Option.some.injEq] at isFeed
      contradiction
  | zero =>
      cases bodyIs : line.body with
      | nil => simpa [bodyIs, spaces] using isFeed
      | cons byte rest =>
          have notFeed := (unbroken byte (mem_content_of_mem_body (by simp [bodyIs]))).1
          simp [bodyIs, spaces] at isFeed
          exact absurd isFeed notFeed

end TextLine

/-! ## One line -/

theorem IsLines.replace {above below others : List TextLine} {line new : TextLine}
    (isLines : IsLines (above ++ line :: below)) (isNew : IsLines (new :: others))
    (behind : ∀ previous ∈ above.getLast?, previous.Precedes line → previous.Precedes new) :
    IsLines (above ++ new :: others) := by
  induction above with
  | nil => exact isNew
  | cons first above inductionHypothesis =>
      cases above with
      | nil =>
          cases isLines with
          | cons unbroken precedes _ => exact .cons unbroken (behind first rfl precedes) isNew
      | cons second above =>
          cases isLines with
          | cons unbroken precedes rest =>
              refine .cons unbroken precedes (inductionHypothesis rest ?_)
              intro previous isLast
              exact behind previous (by simpa [List.getLast?_cons_cons] using isLast)

theorem IsLines.indented {line : TextLine} {below : List TextLine}
    (isLines : IsLines (line :: below)) (column : Nat) :
    IsLines (line.indented column :: below) := by
  cases isLines with
  | last unbroken ended => exact .last (unbroken.indented column) ended
  | cons unbroken precedes rest => exact .cons (unbroken.indented column) precedes rest

/-- A line feed can be moved from an empty line to the carriage return in front of it. -/
theorem IsLines.join {above below : List TextLine} {previous blank : TextLine}
    (isLines : IsLines (above ++ previous :: blank :: below))
    (isReturn : previous.delimiter = [carriageReturn]) (isFeed : blank.delimiter = [lineFeed]) :
    IsLines (above ++ ⟨previous.content, [carriageReturn, lineFeed]⟩ :: below) := by
  refine isLines.replace ?_ ?_
  · cases isLines.of_append with
    | cons unbroken _ rest =>
        cases rest with
        | last _ ended => simp [ended] at isFeed
        | cons _ _ rest => exact .cons unbroken ⟨.inr (.inr rfl), by simp⟩ rest
  · rintro last _ ⟨isDelimiter, apart⟩
    refine ⟨isDelimiter, fun lastReturn => ?_⟩
    have different := apart lastReturn
    rw [TextLine.bytes, isReturn] at different
    cases contentIs : previous.content with
    | nil => decide
    | cons byte content =>
        rw [contentIs] at different
        exact different

namespace Source

variable {source : Source} {line : TextLine} {above below : List TextLine}

section Line

variable (split : textLines source.bytes = above ++ line :: below)

include split

theorem drop_start :
    source.bytes.drop (textOf above).length = line.content ++ (line.delimiter ++ textOf below) := by
  rw [bytes_eq_of_textLines_eq split, List.drop_left, TextLine.bytes, List.append_assoc]

/-- The indentation of a line does not reach over its end. -/
theorem indentRun_start :
    source.indentRun (textOf above).length = (line.content.takeWhile isIndentByte).length := by
  have isLines := isLines_textLines source.bytes
  rw [split] at isLines
  have stops : (line.delimiter ++ textOf below).takeWhile isIndentByte = [] := by
    cases isLines.of_append with
    | last _ ended => simp [ended]
    | cons _ precedes _ =>
        rcases precedes.1 with isBreak | isBreak | isBreak <;> rw [isBreak] <;> rfl
  rw [indentRun, drop_start split, List.takeWhile_append, stops, List.append_nil]
  split
  next whole => rw [whole]
  next => rfl

theorem setIndent_start (column : Nat) :
    source.setIndent (textOf above).length column =
      textOf (above ++ line.indented column :: below) := by
  have rest : source.bytes.drop
      ((textOf above).length + (line.content.takeWhile isIndentByte).length) =
        line.body ++ (line.delimiter ++ textOf below) := by
    rw [← List.drop_drop, drop_start split]
    have parts := List.takeWhile_append_dropWhile (p := isIndentByte) (l := line.content)
    rw [← parts, List.append_assoc, List.takeWhile_append_dropWhile, List.drop_left]
    rfl
  rw [setIndent, indentRun_start split, rest, bytes_eq_of_textLines_eq split, List.take_left]
  simp [TextLine.bytes, TextLine.indented]

theorem blank_start_iff :
    (textOf above).length + source.indentRun (textOf above).length =
      source.lineEnd (textOf above).length ↔ line.body = [] := by
  have parts := congrArg List.length
    (List.takeWhile_append_dropWhile (p := isIndentByte) (l := line.content))
  rw [List.length_append] at parts
  rw [indentRun_start split, lineEnd_start split, ← List.length_eq_zero_iff, TextLine.body]
  omega

theorem lineColumn_start (style : Style) :
    source.lineColumn style (textOf above).length =
      if line.body = [] then 0 else (source.indentation style (textOf above).length).toNat := by
  simp only [lineColumn, blank_start_iff split]

end Line

end Source

theorem bytes_reindentLine_of_textLines_eq {source : Source} {line : TextLine}
    {above below : List TextLine} (split : textLines source.bytes = above ++ line :: below)
    (style : Style) :
    (reindentLine style source above.length).bytes =
      if source.insideLiteral (textOf above).length then source.bytes
      else textOf (above ++
        line.indented (source.lineColumn style (textOf above).length) :: below) := by
  rw [bytes_reindentLine, Source.lineStartOf?_of_textLines_eq split]
  simp only [Source.setIndent_start split]

/-- A blank line between a carriage return and a line feed, outside all strings and
comments: to indent it joins the two delimiters. -/
def JoinsBreaks (source : Source) (number : Nat) : Prop :=
  ∃ above previous blank below, textLines source.bytes = above ++ previous :: blank :: below ∧
    number = above.length + 1 ∧ previous.delimiter = [carriageReturn] ∧
    blank.body = [] ∧ blank.delimiter = [lineFeed] ∧
    source.insideLiteral (textOf (above ++ [previous])).length = false

/-- The line that `reindentLine` puts in the place of a line. -/
def Source.newLine (source : Source) (style : Style) (start : Nat) (line : TextLine) : TextLine :=
  if source.insideLiteral start then line
  else line.indented (source.lineColumn style start)

theorem Source.sameBody_newLine (source : Source) (style : Style) (start : Nat) (line : TextLine) :
    line.SameBody (source.newLine style start line) := by
  unfold newLine
  split
  · exact ⟨rfl, rfl⟩
  · exact line.sameBody_indented _

section Step

variable {source : Source} {line : TextLine} {above below : List TextLine}

theorem bytes_reindentLine_eq_newLine (split : textLines source.bytes = above ++ line :: below)
    (style : Style) :
    (reindentLine style source above.length).bytes =
      textOf (above ++ source.newLine style (textOf above).length line :: below) := by
  rw [bytes_reindentLine_of_textLines_eq split, Source.newLine]
  split
  next => rw [← split, textOf_textLines]
  next => rfl

/-- Where no delimiters are joined, one line is replaced and the others stay. -/
theorem textLines_reindentLine (split : textLines source.bytes = above ++ line :: below)
    (noJoin : ¬ JoinsBreaks source above.length) (style : Style) :
    textLines (reindentLine style source above.length).bytes =
      above ++ source.newLine style (textOf above).length line :: below := by
  rw [bytes_reindentLine_of_textLines_eq split, Source.newLine]
  split
  next => exact split
  next outside =>
    have isLines := isLines_textLines source.bytes
    rw [split] at isLines
    have isRest := isLines.of_append
    refine textLines_textOf (isLines.replace (isRest.indented _) ?_)
    intro previous isLast precedes
    obtain ⟨front, rfl⟩ := List.getLast?_eq_some_iff.mp isLast
    have behind : textLines source.bytes = front ++ previous :: line :: below := by simp [split]
    refine ⟨precedes.1, fun isReturn isFeed => noJoin ?_⟩
    obtain ⟨isBlank, startsWithFeed⟩ :=
      TextLine.body_eq_nil_of_head?_indented isRest.unbroken isFeed
    exact ⟨front, previous, line, below, behind, by simp, isReturn, isBlank,
      isRest.delimiter_eq_feed startsWithFeed, by simpa using outside⟩

/-- Where delimiters are joined, the two lines become one. -/
theorem textLines_reindentLine_of_join {previous : TextLine}
    (split : textLines source.bytes = above ++ previous :: line :: below)
    (isReturn : previous.delimiter = [carriageReturn]) (isBlank : line.body = [])
    (isFeed : line.delimiter = [lineFeed])
    (outside : source.insideLiteral (textOf (above ++ [previous])).length = false)
    (style : Style) :
    textLines (reindentLine style source (above.length + 1)).bytes =
      above ++ ⟨previous.content, [carriageReturn, lineFeed]⟩ :: below := by
  have isLines := isLines_textLines source.bytes
  rw [split] at isLines
  have behind : textLines source.bytes = (above ++ [previous]) ++ line :: below := by simp [split]
  have column := Source.lineColumn_start behind style
  rw [if_pos isBlank] at column
  have text := bytes_reindentLine_of_textLines_eq behind style
  rw [outside, column, List.length_append, List.length_singleton] at text
  -- The carriage return and the line feed end one line together.
  have joined : (reindentLine style source (above.length + 1)).bytes =
      textOf (above ++ ⟨previous.content, [carriageReturn, lineFeed]⟩ :: below) := by
    rw [text]
    simp [TextLine.bytes, TextLine.indented, isReturn, isBlank, isFeed, spaces]
  rw [joined, textLines_textOf (isLines.join isReturn isFeed)]

theorem length_textLines_of_joinsBreaks {number : Nat} (joins : JoinsBreaks source number)
    (style : Style) :
    (textLines (reindentLine style source number).bytes).length + 1 =
      (textLines source.bytes).length := by
  obtain ⟨above, previous, blank, below, split, rfl, isReturn, isBlank, isFeed, outside⟩ := joins
  rw [textLines_reindentLine_of_join split isReturn isBlank isFeed outside, split]
  simp only [List.length_append, List.length_cons]
  omega

theorem bytes_reindentLine_of_length_le {number : Nat} (style : Style)
    (past : (textLines source.bytes).length ≤ number) :
    (reindentLine style source number).bytes = source.bytes := by
  rw [← source.lineCount_eq, Source.lineCount, ← List.getElem?_eq_none_iff] at past
  rw [bytes_reindentLine, Source.lineStartOf?, past]

end Step

/-! ## A range of lines -/

/-- The second text has the lines of the first, up to the indentation of the lines
from `first` to before `last`. -/
structure KeepsLines (first last : Nat) (old new : Bytes) : Prop where
  count : (textLines new).length = (textLines old).length
  sameBody : ∀ (number : Nat) (line other : TextLine), (textLines old)[number]? = some line →
    (textLines new)[number]? = some other → line.SameBody other
  outside : ∀ number, ¬ (first ≤ number ∧ number < last) →
    (textLines new)[number]? = (textLines old)[number]?

namespace KeepsLines

variable {first last : Nat} {old middle new : Bytes}

theorem refl (first last : Nat) (bytes : Bytes) : KeepsLines first last bytes bytes := by
  refine ⟨rfl, ?_, fun _ _ => rfl⟩
  intro number line other found again
  rw [found, Option.some.injEq] at again
  subst again
  exact ⟨rfl, rfl⟩

theorem mono {wideFirst wideLast : Nat} (keeps : KeepsLines first last old new)
    (below : wideFirst ≤ first) (above : last ≤ wideLast) :
    KeepsLines wideFirst wideLast old new := by
  refine ⟨keeps.count, keeps.sameBody, fun number outside => keeps.outside number ?_⟩
  omega

theorem trans (left : KeepsLines first last old middle) (right : KeepsLines first last middle new) :
    KeepsLines first last old new := by
  refine ⟨right.count.trans left.count, ?_, fun number outside =>
    (right.outside number outside).trans (left.outside number outside)⟩
  intro number line other found foundOther
  have inMiddle : number < (textLines middle).length := by
    rw [left.count]
    exact (List.getElem?_eq_some_iff.mp found).1
  obtain ⟨sameDelimiter, sameBody⟩ :=
    left.sameBody number line _ found (List.getElem?_eq_getElem inMiddle)
  obtain ⟨otherDelimiter, otherBody⟩ :=
    right.sameBody number _ other (List.getElem?_eq_getElem inMiddle) foundOther
  exact ⟨otherDelimiter.trans sameDelimiter, otherBody.trans sameBody⟩

theorem of_replaced {above below : List TextLine} {line other : TextLine}
    (oldLines : textLines old = above ++ line :: below)
    (newLines : textLines new = above ++ other :: below) (sameBody : line.SameBody other) :
    KeepsLines above.length (above.length + 1) old new := by
  have replaced : textLines new = (textLines old).set above.length other := by
    simp [oldLines, newLines]
  refine ⟨by rw [replaced, List.length_set], ?_, ?_⟩
  · intro number first second found foundOther
    by_cases isLine : above.length = number
    · subst isLine
      simp only [oldLines, newLines, List.getElem?_append_right (Nat.le_refl _), Nat.sub_self,
        List.getElem?_cons_zero, Option.some.injEq] at found foundOther
      rwa [← found, ← foundOther]
    · rw [replaced, List.getElem?_set_ne isLine, found, Option.some.injEq] at foundOther
      rw [← foundOther]
      exact ⟨rfl, rfl⟩
  · intro number outside
    rw [replaced, List.getElem?_set_ne (by omega)]

end KeepsLines

theorem exists_textLines_split {bytes : Bytes} {number : Nat}
    (inText : number < (textLines bytes).length) :
    ∃ above line below, textLines bytes = above ++ line :: below ∧ above.length = number := by
  refine ⟨(textLines bytes).take number, (textLines bytes)[number],
    (textLines bytes).drop (number + 1), ?_, by rw [List.length_take]; omega⟩
  rw [← List.drop_eq_getElem_cons inText, List.take_append_drop]

theorem keepsLines_reindentLine {source : Source} {number : Nat}
    (noJoin : ¬ JoinsBreaks source number) (style : Style) :
    KeepsLines number (number + 1) source.bytes (reindentLine style source number).bytes := by
  by_cases inText : number < (textLines source.bytes).length
  · obtain ⟨above, line, below, split, rfl⟩ := exists_textLines_split inText
    exact .of_replaced split (textLines_reindentLine split noJoin style)
      (source.sameBody_newLine style _ line)
  · rw [bytes_reindentLine_of_length_le style (by omega)]
    exact .refl ..

theorem length_textLines_reindentLine_le (style : Style) (source : Source) (number : Nat) :
    (textLines (reindentLine style source number).bytes).length ≤
      (textLines source.bytes).length := by
  by_cases joins : JoinsBreaks source number
  · have lost := length_textLines_of_joinsBreaks joins style
    omega
  · exact Nat.le_of_eq (keepsLines_reindentLine joins style).count

theorem length_textLines_foldl_le (style : Style) (numbers : List Nat) (source : Source) :
    (textLines (numbers.foldl (reindentLine style) source).bytes).length ≤
      (textLines source.bytes).length := by
  induction numbers generalizing source with
  | nil => exact Nat.le_refl _
  | cons number numbers inductionHypothesis =>
      exact Nat.le_trans (inductionHypothesis (reindentLine style source number))
        (length_textLines_reindentLine_le style source number)

/-- One more line is one more step, also behind the last line, where it does nothing. -/
theorem reindent_succ (style : Style) (bytes : Bytes) {first number : Nat}
    (inRange : first ≤ number) :
    reindent style bytes first (number + 1) =
      (reindentLine style (.ofBytes (reindent style bytes first number)) number).bytes := by
  have count := (Source.ofBytes bytes).lineCount_eq
  rw [Source.bytes_ofBytes] at count
  by_cases inText : number < (textLines bytes).length
  · have more : min (number + 1) (Source.ofBytes bytes).lineCount - first =
        (min number (Source.ofBytes bytes).lineCount - first) + 1 := by omega
    have isLast : first + (min number (Source.ofBytes bytes).lineCount - first) = number := by
      omega
    simp only [reindent, more, List.range'_1_concat, List.foldl_append, List.foldl_cons,
      List.foldl_nil, isLast, Source.ofBytes_bytes]
  · have same : min (number + 1) (Source.ofBytes bytes).lineCount =
        min number (Source.ofBytes bytes).lineCount := by omega
    have fewer := length_textLines_foldl_le style
      (List.range' first (min number (Source.ofBytes bytes).lineCount - first)) (.ofBytes bytes)
    rw [Source.bytes_ofBytes] at fewer
    simp only [reindent, same, Source.ofBytes_bytes]
    rw [bytes_reindentLine_of_length_le style (by omega)]

theorem length_textLines_reindent_le (style : Style) (bytes : Bytes) (first : Nat)
    {last longer : Nat} (isLonger : last ≤ longer) :
    (textLines (reindent style bytes first longer)).length ≤
      (textLines (reindent style bytes first last)).length := by
  induction isLonger with
  | refl => exact Nat.le_refl _
  | @step longer _ inductionHypothesis =>
      apply Nat.le_trans _ inductionHypothesis
      by_cases inRange : first ≤ longer
      · rw [reindent_succ style bytes inRange]
        exact length_textLines_reindentLine_le style _ longer
      · exact Nat.le_of_eq (by rw [reindent_of_le (by omega), reindent_of_le (by omega)])

/-- As long as no delimiters are joined, the lines are kept. -/
theorem keepsLines_reindent (style : Style) {bytes : Bytes} {first last : Nat}
    (noJoin : ∀ number, first ≤ number → number < last →
      ¬ JoinsBreaks (.ofBytes (reindent style bytes first number)) number) :
    KeepsLines first last bytes (reindent style bytes first last) := by
  induction last with
  | zero =>
      rw [reindent_of_le (Nat.zero_le first)]
      exact .refl ..
  | succ last inductionHypothesis =>
      by_cases inRange : first ≤ last
      · have keeps := inductionHypothesis fun number inRange isBefore =>
          noJoin number inRange (by omega)
        have step := keepsLines_reindentLine (noJoin last inRange (by omega)) style
        rw [Source.bytes_ofBytes, ← reindent_succ style bytes inRange] at step
        exact (keeps.mono (Nat.le_refl _) (by omega)).trans (step.mono inRange (Nat.le_refl _))
      · rw [reindent_of_le (by omega)]
        exact .refl ..

/-- To indent a range of lines anew keeps the number of the lines, their delimiters,
their content behind the indentation, and the lines outside the range, unless it
comes to a blank line between a carriage return and a line feed. -/
theorem keepsLines_reindent_iff (style : Style) (bytes : Bytes) (first last : Nat) :
    KeepsLines first last bytes (reindent style bytes first last) ↔
      ∀ number, first ≤ number → number < last →
        ¬ JoinsBreaks (.ofBytes (reindent style bytes first number)) number := by
  constructor
  · intro keeps number inRange isBefore joins
    have fewer := length_textLines_reindent_le style bytes first (Nat.zero_le number)
    rw [reindent_of_le (Nat.zero_le first)] at fewer
    have lost := length_textLines_of_joinsBreaks joins style
    rw [← reindent_succ style bytes inRange, Source.bytes_ofBytes] at lost
    have afterwards := length_textLines_reindent_le style bytes first
      (show number + 1 ≤ last from isBefore)
    have count := keeps.count
    omega
  · exact keepsLines_reindent style

/-- A blank line is lost, and a line behind the range is indented in place of it. -/
theorem not_keepsLines_reindent_blank :
    reindent {} (encode "\r \nfoo\n  bar") 1 3 = encode "\r\nfoo\nbar" ∧
      ¬ KeepsLines 1 3 (encode "\r \nfoo\n  bar") (reindent {} (encode "\r \nfoo\n  bar") 1 3) := by
  have result : reindent {} (encode "\r \nfoo\n  bar") 1 3 = encode "\r\nfoo\nbar" := by
    decide +kernel
  refine ⟨result, fun keeps => ?_⟩
  have count := keeps.count
  rw [result] at count
  revert count
  decide +kernel

/-! ## One region after the other -/

/-- To indent a range of lines and then the range behind it is to indent both at once.
This also holds where delimiters are joined in the first range: fewer lines are left
then, and neither way comes to the numbers that are missing. -/
theorem reindent_adjacent (style : Style) (bytes : Bytes) {first middle last : Nat}
    (isBefore : first ≤ middle) (isBehind : middle ≤ last) :
    reindent style (reindent style bytes first middle) middle last =
      reindent style bytes first last := by
  induction isBehind with
  | refl => rw [reindent_of_le (Nat.le_refl middle)]
  | @step last isBehind inductionHypothesis =>
      have inRange : first ≤ last := Nat.le_trans isBefore isBehind
      rw [reindent_succ style _ isBehind, inductionHypothesis, reindent_succ style bytes inRange]

/-- The first range joins two delimiters, and the second goes on in the shorter text. -/
theorem reindent_adjacent_of_join :
    (textLines (encode "\r \n(f\rx)\n  bar")).length = 5 ∧
      (textLines (reindent {} (encode "\r \n(f\rx)\n  bar") 0 2)).length = 4 ∧
      reindent {} (reindent {} (encode "\r \n(f\rx)\n  bar") 0 2) 2 9 =
        encode "\r\n(f\r x)\nbar" := by
  refine ⟨by decide +kernel, by decide +kernel, ?_⟩
  rw [reindent_adjacent {} _ (show 0 ≤ 2 by decide) (show 2 ≤ 9 by decide)]
  decide +kernel

end SchemeLayout
