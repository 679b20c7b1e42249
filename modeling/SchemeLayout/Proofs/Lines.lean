import SchemeLayout.Source

/-!
A text as the list of its lines.

`textLines` splits a text behind every line delimiter, `textOf` puts lines
together again.  The two are inverse to each other on the lists that `IsLines`
describes: every line but the last ends with a delimiter, and no carriage return
at the end of a line is followed by a line feed at the start of the next one.
The line index of a snapshot reads its starts and ends off the same list.
-/

set_option autoImplicit false

namespace SchemeLayout

/-- A line: what stands on it, and the delimiter that ends it. -/
structure TextLine where
  content : Bytes
  delimiter : Bytes
  deriving DecidableEq, Repr

namespace TextLine

def bytes (line : TextLine) : Bytes := line.content ++ line.delimiter

def extend (content : Bytes) (line : TextLine) : TextLine :=
  { line with content := content ++ line.content }

/-- No delimiter stands within the line. -/
def Unbroken (line : TextLine) : Prop :=
  ∀ byte ∈ line.content, byte ≠ lineFeed ∧ byte ≠ carriageReturn

/-- The line ends with a delimiter, and the next line does not start with more of it. -/
def Precedes (line next : TextLine) : Prop :=
  (line.delimiter = [lineFeed] ∨ line.delimiter = [carriageReturn] ∨
    line.delimiter = [carriageReturn, lineFeed]) ∧
  (line.delimiter = [carriageReturn] → next.bytes.head? ≠ some lineFeed)

end TextLine

/-- The lines of a text. -/
def textLines : Bytes → List TextLine
  | [] => [⟨[], []⟩]
  | 0x0D :: 0x0A :: rest => ⟨[], [carriageReturn, lineFeed]⟩ :: textLines rest
  | 0x0A :: rest => ⟨[], [lineFeed]⟩ :: textLines rest
  | 0x0D :: rest => ⟨[], [carriageReturn]⟩ :: textLines rest
  | byte :: rest => (textLines rest).modifyHead (.extend [byte])

/-- The text with these lines. -/
def textOf (lines : List TextLine) : Bytes := lines.flatMap TextLine.bytes

/-- The lists that are the lines of a text. -/
inductive IsLines : List TextLine → Prop where
  | last {line : TextLine} : line.Unbroken → line.delimiter = [] → IsLines [line]
  | cons {line next : TextLine} {rest : List TextLine} :
      line.Unbroken → line.Precedes next → IsLines (next :: rest) → IsLines (line :: next :: rest)

@[simp] theorem textOf_nil : textOf [] = [] := rfl

@[simp] theorem textOf_cons (line : TextLine) (lines : List TextLine) :
    textOf (line :: lines) = line.bytes ++ textOf lines := by
  simp [textOf]

@[simp] theorem textOf_append (left right : List TextLine) :
    textOf (left ++ right) = textOf left ++ textOf right := by
  simp [textOf]

/-! ## Splitting and joining -/

theorem textLines_feed (rest : Bytes) :
    textLines (lineFeed :: rest) = ⟨[], [lineFeed]⟩ :: textLines rest := by
  rw [lineFeed, textLines]
  rfl

theorem textLines_return {rest : Bytes} (notFeed : rest.head? ≠ some lineFeed) :
    textLines (carriageReturn :: rest) = ⟨[], [carriageReturn]⟩ :: textLines rest := by
  rw [carriageReturn, textLines.eq_4]
  · rfl
  · rintro more rfl
    exact notFeed rfl

theorem textLines_returnFeed (rest : Bytes) :
    textLines (carriageReturn :: lineFeed :: rest) =
      ⟨[], [carriageReturn, lineFeed]⟩ :: textLines rest := by
  rw [carriageReturn, lineFeed, textLines]
  rfl

theorem textLines_byte {byte : UInt8} (notFeed : byte ≠ lineFeed)
    (notReturn : byte ≠ carriageReturn) (rest : Bytes) :
    textLines (byte :: rest) = (textLines rest).modifyHead (.extend [byte]) :=
  textLines.eq_5 byte rest (fun _ isReturn _ => notReturn isReturn) notFeed notReturn

theorem exists_textLines_eq_cons (bytes : Bytes) :
    ∃ line lines, textLines bytes = line :: lines := by
  fun_induction textLines bytes with
  | case1 | case2 | case3 | case4 => exact ⟨_, _, rfl⟩
  | case5 byte rest _ _ _ inductionHypothesis =>
      obtain ⟨line, lines, split⟩ := inductionHypothesis
      exact ⟨line.extend [byte], lines, by rw [split, List.modifyHead_cons]⟩

theorem textOf_textLines (bytes : Bytes) : textOf (textLines bytes) = bytes := by
  fun_induction textLines bytes with
  | case1 => rfl
  | case2 rest inductionHypothesis | case3 rest inductionHypothesis
  | case4 rest _ inductionHypothesis =>
      rw [textOf_cons, inductionHypothesis]
      rfl
  | case5 byte rest _ _ _ inductionHypothesis =>
      obtain ⟨line, lines, split⟩ := exists_textLines_eq_cons rest
      rw [split, textOf_cons] at inductionHypothesis
      rw [split, List.modifyHead_cons, textOf_cons, ← inductionHypothesis]
      rfl

theorem TextLine.Precedes.delimiter_ne_nil {line next : TextLine} (precedes : line.Precedes next) :
    line.delimiter ≠ [] := by
  rcases precedes.1 with isFeed | isReturn | isBoth <;> simp [*]

namespace IsLines

variable {line : TextLine} {lines : List TextLine}

theorem unbroken (isLines : IsLines (line :: lines)) : line.Unbroken := by
  cases isLines with
  | last unbroken | cons unbroken => exact unbroken

theorem extend {byte : UInt8} (notFeed : byte ≠ lineFeed) (notReturn : byte ≠ carriageReturn)
    (isLines : IsLines (line :: lines)) : IsLines (line.extend [byte] :: lines) := by
  have unbroken : (line.extend [byte]).Unbroken := by
    intro other member
    rcases List.mem_cons.mp member with rfl | inContent
    · exact ⟨notFeed, notReturn⟩
    · exact isLines.unbroken other inContent
  cases isLines with
  | last _ ended => exact .last unbroken ended
  | cons _ precedes rest => exact .cons unbroken precedes rest

theorem of_append {above : List TextLine} (isLines : IsLines (above ++ line :: lines)) :
    IsLines (line :: lines) := by
  induction above with
  | nil => exact isLines
  | cons first above inductionHypothesis =>
      apply inductionHypothesis
      rw [List.cons_append] at isLines
      cases tail : above ++ line :: lines with
      | nil => simp at tail
      | cons next rest =>
          rw [tail] at isLines
          cases isLines with
          | cons _ _ isRest => exact isRest

theorem precedes {next : TextLine} {above : List TextLine}
    (isLines : IsLines (above ++ line :: next :: lines)) : line.Precedes next := by
  cases isLines.of_append with
  | cons _ precedes _ => exact precedes

theorem mem_delimiter (isLines : IsLines (line :: lines)) {byte : UInt8}
    (member : byte ∈ line.delimiter) : byte = lineFeed ∨ byte = carriageReturn := by
  cases isLines with
  | last _ ended => simp [ended] at member
  | cons _ precedes _ =>
      rcases precedes.1 with isFeed | isReturn | isBoth
      · exact .inl (List.mem_singleton.mp (isFeed ▸ member))
      · exact .inr (List.mem_singleton.mp (isReturn ▸ member))
      · rw [isBoth, List.mem_cons, List.mem_singleton] at member
        exact member.symm

theorem delimiter_eq_feed (isLines : IsLines (line :: lines))
    (isFeed : line.delimiter.head? = some lineFeed) : line.delimiter = [lineFeed] := by
  cases isLines with
  | last _ ended => simp [ended] at isFeed
  | cons _ precedes _ =>
      rcases precedes.1 with isDelimiter | isDelimiter | isDelimiter
      · exact isDelimiter
      · simp [isDelimiter, carriageReturn, lineFeed] at isFeed
      · simp [isDelimiter, carriageReturn, lineFeed] at isFeed

/-- Only the last line of a text can be empty. -/
theorem head?_textOf (isLines : IsLines (line :: lines)) :
    (textOf (line :: lines)).head? = line.bytes.head? := by
  rw [textOf_cons]
  cases isLines with
  | last => simp
  | cons _ precedes _ =>
      have notEmpty : line.bytes ≠ [] := by simp [TextLine.bytes, precedes.delimiter_ne_nil]
      obtain ⟨byte, more, split⟩ := List.exists_cons_of_ne_nil notEmpty
      rw [split]
      rfl

end IsLines

theorem isLines_textLines (bytes : Bytes) : IsLines (textLines bytes) := by
  have empty (delimiter : Bytes) : (TextLine.mk [] delimiter).Unbroken := by
    simp [TextLine.Unbroken]
  fun_induction textLines bytes with
  | case1 => exact .last (empty _) rfl
  | case2 rest inductionHypothesis =>
      obtain ⟨next, lines, split⟩ := exists_textLines_eq_cons rest
      rw [split] at inductionHypothesis ⊢
      exact .cons (empty _) ⟨.inr (.inr rfl), by simp⟩ inductionHypothesis
  | case3 rest inductionHypothesis =>
      obtain ⟨next, lines, split⟩ := exists_textLines_eq_cons rest
      rw [split] at inductionHypothesis ⊢
      exact .cons (empty _) ⟨.inl rfl, by simp [lineFeed, carriageReturn]⟩ inductionHypothesis
  | case4 rest notFeed inductionHypothesis =>
      obtain ⟨next, lines, split⟩ := exists_textLines_eq_cons rest
      have text := textOf_textLines rest
      rw [split] at inductionHypothesis text ⊢
      refine .cons (empty _) ⟨.inr (.inl rfl), fun _ isFeed => ?_⟩ inductionHypothesis
      obtain ⟨more, nextIs⟩ := List.head?_eq_some_iff.mp isFeed
      rw [textOf_cons, nextIs] at text
      exact notFeed _ text.symm
  | case5 byte rest _ notFeed notReturn inductionHypothesis =>
      obtain ⟨next, lines, split⟩ := exists_textLines_eq_cons rest
      rw [split] at inductionHypothesis ⊢
      exact inductionHypothesis.extend notFeed notReturn

theorem textLines_content_append {content : Bytes}
    (unbroken : ∀ byte ∈ content, byte ≠ lineFeed ∧ byte ≠ carriageReturn) (rest : Bytes) :
    textLines (content ++ rest) = (textLines rest).modifyHead (.extend content) := by
  obtain ⟨line, lines, split⟩ := exists_textLines_eq_cons rest
  induction content with
  | nil => simp [split, TextLine.extend]
  | cons byte content inductionHypothesis =>
      obtain ⟨⟨notFeed, notReturn⟩, restUnbroken⟩ := List.forall_mem_cons.mp unbroken
      rw [List.cons_append, textLines_byte notFeed notReturn, inductionHypothesis restUnbroken, split]
      rfl

/-- A list of lines is got back from its text. -/
theorem textLines_textOf {lines : List TextLine} (isLines : IsLines lines) :
    textLines (textOf lines) = lines := by
  induction isLines with
  | @last line unbroken ended =>
      rw [textOf_cons, TextLine.bytes, ended, textOf_nil, List.append_nil,
        textLines_content_append unbroken, textLines, List.modifyHead_cons, TextLine.extend,
        List.append_nil, ← ended]
  | @cons line next rest unbroken precedes isRest inductionHypothesis =>
      have split : textLines (line.delimiter ++ textOf (next :: rest)) =
          ⟨[], line.delimiter⟩ :: next :: rest := by
        rcases precedes with ⟨isFeed | isReturn | isBoth, apart⟩
        · rw [isFeed, List.singleton_append, textLines_feed, inductionHypothesis]
        · have notFeed : (textOf (next :: rest)).head? ≠ some lineFeed := by
            rw [isRest.head?_textOf]
            exact apart isReturn
          rw [isReturn, List.singleton_append, textLines_return notFeed, inductionHypothesis]
        · rw [isBoth, List.cons_append, List.singleton_append, textLines_returnFeed,
            inductionHypothesis]
      rw [textOf_cons, TextLine.bytes, List.append_assoc, textLines_content_append unbroken, split]
      simp [TextLine.extend]

/-! ## The line index -/

/-- Where lines start, the first of them at a given offset. -/
def lineOffsets (offset : Nat) : List TextLine → List Nat
  | [] => []
  | line :: lines => offset :: lineOffsets (offset + line.bytes.length) lines

theorem lineOffsets_append (offset : Nat) (left right : List TextLine) :
    lineOffsets offset (left ++ right) =
      lineOffsets offset left ++ lineOffsets (offset + (textOf left).length) right := by
  induction left generalizing offset with
  | nil => rfl
  | cons line left inductionHypothesis =>
      simp [lineOffsets, inductionHypothesis, Nat.add_assoc]

@[simp] theorem length_lineOffsets (offset : Nat) (lines : List TextLine) :
    (lineOffsets offset lines).length = lines.length := by
  induction lines generalizing offset with
  | nil => rfl
  | cons line lines inductionHypothesis => simp [lineOffsets, inductionHypothesis]

theorem cons_lineStartsAfter_eq (offset : Nat) (bytes : Bytes) :
    offset :: lineStartsAfter offset bytes = lineOffsets offset (textLines bytes) := by
  fun_induction textLines bytes generalizing offset with
  | case1 => rfl
  | case2 rest inductionHypothesis =>
      exact congrArg (offset :: ·) (inductionHypothesis (offset + 2))
  | case3 rest inductionHypothesis =>
      exact congrArg (offset :: ·) (inductionHypothesis (offset + 1))
  | case4 rest notFeed inductionHypothesis =>
      have ends : endsLine 13 rest.head? = true := by
        cases rest with
        | nil => rfl
        | cons next rest =>
            have different : next ≠ lineFeed := fun isFeed => notFeed rest (by rw [isFeed]; rfl)
            simp [endsLine, carriageReturn, different]
      rw [lineStartsAfter, ends]
      exact congrArg (offset :: ·) (inductionHypothesis (offset + 1))
  | case5 byte rest _ notFeed notReturn inductionHypothesis =>
      have goesOn : endsLine byte rest.head? = false := by
        simp only [endsLine, Bool.or_eq_false_iff, Bool.and_eq_false_iff, beq_eq_false_iff_ne]
        exact ⟨notFeed, .inl notReturn⟩
      obtain ⟨line, lines, split⟩ := exists_textLines_eq_cons rest
      have rest := inductionHypothesis (offset + 1)
      rw [split, lineOffsets, List.cons.injEq] at rest
      have length : (line.extend [byte]).bytes.length = 1 + line.bytes.length := by
        simp [TextLine.bytes, TextLine.extend]
        omega
      rw [lineStartsAfter, goesOn, split, List.modifyHead_cons, lineOffsets, length,
        ← Nat.add_assoc, ← rest.2]
      rfl

/-- The lines start where the line index says. -/
theorem lineStarts_eq (bytes : Bytes) : lineStarts bytes = lineOffsets 0 (textLines bytes) :=
  cons_lineStartsAfter_eq 0 bytes

namespace Source

variable {source : Source} {line : TextLine} {above below : List TextLine}

theorem dropBefore_le (source : Source) (byte : UInt8) (offset : Nat) :
    source.dropBefore byte offset ≤ offset := by
  unfold dropBefore
  split <;> omega

theorem dropBefore_succ {front back : Bytes} {byte : UInt8}
    (split : source.bytes = front ++ byte :: back) (wanted : UInt8) :
    source.dropBefore wanted (front.length + 1) =
      if byte = wanted then front.length else front.length + 1 := by
  simp [dropBefore, byteAt, split]

/-- To take off a line feed and then a carriage return is to take off the delimiter. -/
theorem dropBefore_delimiter {front content delimiter back : Bytes}
    (split : source.bytes = front ++ (content ++ (delimiter ++ back)))
    (unbroken : ∀ byte ∈ content, byte ≠ lineFeed ∧ byte ≠ carriageReturn)
    (isDelimiter : delimiter = [lineFeed] ∨ delimiter = [carriageReturn] ∨
      delimiter = [carriageReturn, lineFeed]) :
    max (source.dropBefore carriageReturn (source.dropBefore lineFeed
      (front.length + content.length + delimiter.length))) front.length =
      front.length + content.length := by
  rw [← List.append_assoc] at split
  rw [← List.length_append]
  rcases isDelimiter with rfl | rfl | rfl
  · have afterFeed := dropBefore_succ split lineFeed
    rw [if_pos rfl] at afterFeed
    rw [List.length_singleton, afterFeed]
    -- A carriage return in front of the line feed could only stand on the line above.
    rcases List.eq_nil_or_concat content with rfl | ⟨inside, byte, rfl⟩
    · have bound := source.dropBefore_le carriageReturn (front ++ []).length
      simp only [List.append_nil] at bound ⊢
      omega
    · have notReturn := (unbroken byte (by simp)).2
      have atByte : source.bytes = (front ++ inside) ++ byte :: ([lineFeed] ++ back) := by
        simp [split]
      have kept := dropBefore_succ atByte carriageReturn
      have length : (front ++ inside.concat byte).length = (front ++ inside).length + 1 := by
        simp [Nat.add_assoc]
      rw [if_neg notReturn] at kept
      rw [length, kept, List.length_append]
      omega
  · have notFeed := dropBefore_succ split lineFeed
    have afterReturn := dropBefore_succ split carriageReturn
    rw [if_neg (by decide)] at notFeed
    rw [if_pos rfl] at afterReturn
    rw [List.length_singleton, notFeed, afterReturn, List.length_append]
    omega
  · have afterReturn := dropBefore_succ split carriageReturn
    have atFeed : source.bytes = (front ++ content ++ [carriageReturn]) ++ lineFeed :: back := by
      simp [split]
    have afterFeed := dropBefore_succ atFeed lineFeed
    rw [if_pos rfl, List.length_append, List.length_singleton] at afterFeed
    rw [if_pos rfl] at afterReturn
    rw [List.length_cons, List.length_singleton, afterFeed, afterReturn, List.length_append]
    omega

theorem lineCount_eq (source : Source) : source.lineCount = (textLines source.bytes).length := by
  rw [lineCount, source.starts_eq, lineStarts_eq, length_lineOffsets]

section Line

variable (split : textLines source.bytes = above ++ line :: below)

include split

theorem bytes_eq_of_textLines_eq :
    source.bytes = textOf above ++ (line.bytes ++ textOf below) := by
  rw [← textOf_textLines source.bytes, split, textOf_append, textOf_cons]

theorem starts_eq_of_textLines_eq :
    source.starts = lineOffsets 0 above ++
      (textOf above).length :: lineOffsets ((textOf above).length + line.bytes.length) below := by
  rw [source.starts_eq, lineStarts_eq, split, lineOffsets_append, Nat.zero_add, lineOffsets]

theorem lineStartOf?_of_textLines_eq :
    source.lineStartOf? above.length = some (textOf above).length := by
  rw [lineStartOf?, starts_eq_of_textLines_eq split,
    List.getElem?_append_right (Nat.le_of_eq (length_lineOffsets 0 above)), length_lineOffsets,
    Nat.sub_self, List.getElem?_cons_zero]

theorem lineOf_start : source.lineOf (textOf above).length = above.length := by
  have within : min (textOf above).length source.length = (textOf above).length := by
    rw [length, bytes_eq_of_textLines_eq split, List.length_append]
    omega
  have sorted := pairwise_lineStarts source.bytes
  rw [← source.starts_eq, starts_eq_of_textLines_eq split, List.pairwise_append] at sorted
  obtain ⟨_, sortedBelow, sortedAbove⟩ := sorted
  rw [lineOf, within, lineAt, starts_eq_of_textLines_eq split, List.countP_append]
  have counted : (lineOffsets 0 above).countP (· ≤ (textOf above).length) = above.length := by
    rw [← length_lineOffsets 0 above, List.countP_eq_length]
    intro start member
    exact decide_eq_true (Nat.le_of_lt (sortedAbove start member _ (by simp)))
  have uncounted : (lineOffsets ((textOf above).length + line.bytes.length) below).countP
      (· ≤ (textOf above).length) = 0 := by
    rw [List.countP_eq_zero]
    intro start member
    have later := (List.pairwise_cons.mp sortedBelow).1 start member
    simp only [decide_eq_true_eq]
    omega
  rw [counted, List.countP_cons, uncounted]
  simp

theorem lineStart_start : source.lineStart (textOf above).length = (textOf above).length := by
  rw [lineStart, lineOf_start split, List.getD_eq_getElem?_getD, ← lineStartOf?,
    lineStartOf?_of_textLines_eq split, Option.getD_some]

/-- The content of a line ends where the line index says. -/
theorem lineEnd_start :
    source.lineEnd (textOf above).length = (textOf above).length + line.content.length := by
  have bytes := bytes_eq_of_textLines_eq split
  have isLines := isLines_textLines source.bytes
  rw [split] at isLines
  have unbroken := isLines.of_append.unbroken
  rw [lineEnd, lineOf_start split, lineStart_start split]
  cases below with
  | nil =>
      have past : source.lineStartOf? (above.length + 1) = none := by
        rw [lineStartOf?, starts_eq_of_textLines_eq split]
        simp [lineOffsets]
      have ended : line.delimiter = [] := by
        cases isLines.of_append with
        | last _ ended => exact ended
      rw [past]
      simp only [length, bytes, TextLine.bytes, ended]
      simp
  | cons next below =>
      have isNext : source.lineStartOf? (above.length + 1) =
          some ((textOf above).length + line.bytes.length) := by
        have shifted : textLines source.bytes = (above ++ [line]) ++ next :: below := by
          rw [split, List.append_assoc, List.singleton_append]
        have found := lineStartOf?_of_textLines_eq shifted
        simpa using found
      rw [isNext]
      rw [TextLine.bytes, List.append_assoc] at bytes
      simp only [TextLine.bytes, List.length_append, ← Nat.add_assoc]
      exact dropBefore_delimiter bytes unbroken isLines.precedes.1

end Line

end Source

end SchemeLayout
