import SchemeLayout.Proofs.Idempotence

/-!
The lines that a run has passed.

A run indents line after line.  The text of the lines it has passed is never
touched again: it stays the front of the text, also where the joining of two
delimiters changes the numbers of the lines below.  Without joined delimiters
every step adds one line to those passed, and a run over all lines passes the
whole text.
-/

set_option autoImplicit false

namespace SchemeLayout

/-- To indent this line is to write spaces in front of it: it starts at `start`, outside all
strings and block comments, and it is not blank. -/
structure Source.Rewrites (source : Source) (number start : Nat) : Prop where
  found : source.lineStartOf? number = some start
  outside : source.insideLiteral start = false
  notBlank : start + source.indentRun start ≠ source.lineEnd start

instance (source : Source) (number start : Nat) : Decidable (source.Rewrites number start) :=
  decidable_of_iff (source.lineStartOf? number = some start ∧ source.insideLiteral start = false ∧
      start + source.indentRun start ≠ source.lineEnd start)
    ⟨fun ⟨found, outside, notBlank⟩ => ⟨found, outside, notBlank⟩,
      fun rewrites => ⟨rewrites.found, rewrites.outside, rewrites.notBlank⟩⟩

/-- The lines above line `number` when a run that starts at line `first` comes to it. -/
def passedLines (style : Style) (bytes : Bytes) (first number : Nat) : List TextLine :=
  (textLines (reindent style bytes first number)).take number

variable {style : Style} {bytes : Bytes} {first number : Nat}

/-! ## The front of the text -/

/-- After a step the text starts with the lines above and the new line. -/
theorem passed_reindentLine {source : Source} {above below : List TextLine} {line : TextLine}
    (split : textLines source.bytes = above ++ line :: below) (style : Style) :
    textOf above ++ (source.newLine style (textOf above).length line).bytes <+:
      textOf ((textLines (reindentLine style source above.length).bytes).take
        (above.length + 1)) := by
  by_cases joins : JoinsBreaks source above.length
  · obtain ⟨front, previous, blank, rest, joinSplit, isNumber, isReturn, isBlank, isFeed,
      outside⟩ := joins
    have behind : textLines source.bytes = (front ++ [previous]) ++ blank :: rest := by
      simp [joinSplit]
    rw [split] at behind
    obtain ⟨rfl, sameRest⟩ := List.append_inj behind (by simp [isNumber])
    obtain ⟨rfl, rfl⟩ := List.cons.inj sameRest
    have lines := textLines_reindentLine_of_join joinSplit isReturn isBlank isFeed outside style
    have newLine : source.newLine style (textOf (front ++ [previous])).length line =
        ⟨[], [lineFeed]⟩ := by
      rw [Source.newLine, outside, Source.lineColumn_start split, if_pos isBlank]
      simp [TextLine.indented, isBlank, isFeed, spaces]
    have taken : (textLines (reindentLine style source (front ++ [previous]).length).bytes).take
        ((front ++ [previous]).length + 1) =
          front ++ ⟨previous.content, [carriageReturn, lineFeed]⟩ :: below.take 1 := by
      rw [List.length_append, List.length_singleton, lines, List.take_append,
        List.take_of_length_le (by omega), show front.length + 1 + 1 - front.length = 2 by omega]
      rfl
    rw [newLine, taken]
    refine ⟨textOf (below.take 1), ?_⟩
    simp [TextLine.bytes, isReturn]
  · refine ⟨[], ?_⟩
    rw [textLines_reindentLine split joins, ← List.singleton_append, ← List.append_assoc,
      List.take_left' (by simp), textOf_append, textOf_cons, textOf_nil, List.append_nil,
      List.append_nil]

theorem isPrefix_textOf_passedLines (style : Style) (bytes : Bytes) (first number : Nat) :
    textOf (passedLines style bytes first number) <+: reindent style bytes first number := by
  refine ⟨textOf ((textLines (reindent style bytes first number)).drop number), ?_⟩
  rw [passedLines, ← textOf_append, List.take_append_drop, textOf_textLines]

theorem isPrefix_textOf_passedLines_succ (style : Style) (bytes : Bytes)
    (inRange : first ≤ number) :
    textOf (passedLines style bytes first number) <+:
      textOf (passedLines style bytes first (number + 1)) := by
  simp only [passedLines, reindent_succ style bytes inRange]
  by_cases inText : number < (textLines (reindent style bytes first number)).length
  · obtain ⟨above, line, below, split, rfl⟩ := exists_textLines_split inText
    rw [split, List.take_left]
    rw [← Source.bytes_ofBytes (reindent style bytes first above.length)] at split
    exact (List.prefix_append _ _).trans (passed_reindentLine split style)
  · refine ⟨[], ?_⟩
    rw [bytes_reindentLine_of_length_le style (by simpa using inText), Source.bytes_ofBytes,
      List.take_of_length_le (by omega), List.take_of_length_le (by omega), List.append_nil]

/-- What a run has passed stays the front of the text. -/
theorem isPrefix_textOf_passedLines_later (style : Style) (bytes : Bytes) {last : Nat}
    (inRange : first ≤ number) (isLater : number ≤ last) :
    textOf (passedLines style bytes first number) <+: reindent style bytes first last := by
  apply List.IsPrefix.trans _ (isPrefix_textOf_passedLines style bytes first last)
  induction isLater with
  | refl => exact List.prefix_rfl
  | @step last isLater inductionHypothesis =>
      exact inductionHypothesis.trans
        (isPrefix_textOf_passedLines_succ style bytes (Nat.le_trans inRange isLater))

/-- Behind the last line a run changes nothing. -/
theorem reindent_eq_of_length_le {last : Nat} (inRange : first ≤ number) (isLater : number ≤ last)
    (past : (textLines (reindent style bytes first number)).length ≤ number) :
    reindent style bytes first last = reindent style bytes first number := by
  induction isLater with
  | refl => rfl
  | @step last isLater inductionHypothesis =>
      rw [reindent_succ style bytes (Nat.le_trans inRange isLater), inductionHypothesis]
      exact bytes_reindentLine_of_length_le style (Nat.le_trans past isLater)

/-- In the text that a run leaves, a line stands below the lines passed as the run has
indented it, and nothing follows behind the last line. -/
theorem exists_reindent_eq {last : Nat} {above below : List TextLine} {line : TextLine}
    (split : textLines (Source.ofBytes (reindent style bytes first above.length)).bytes =
      above ++ line :: below)
    (inRange : first ≤ above.length) (isBefore : above.length < last) :
    ∃ later, reindent style bytes first last = textOf above ++
        (((Source.ofBytes (reindent style bytes first above.length)).newLine style
          (textOf above).length line).bytes ++ later) ∧
      (below = [] → later = []) := by
  have passed := passed_reindentLine split style
  rw [← reindent_succ style bytes inRange] at passed
  obtain ⟨later, result⟩ := passed.trans
    (isPrefix_textOf_passedLines_later style bytes (Nat.le_succ_of_le inRange) isBefore)
  rw [List.append_assoc] at result
  refine ⟨later, result.symm, ?_⟩
  rintro rfl
  have next := bytes_reindentLine_eq_newLine split style
  have fewer := length_textLines_reindentLine_le style
    (.ofBytes (reindent style bytes first above.length)) above.length
  rw [← reindent_succ style bytes inRange] at next fewer
  rw [split, List.length_append, List.length_singleton] at fewer
  rw [reindent_eq_of_length_le (Nat.le_succ_of_le inRange) isBefore fewer, next] at result
  simpa using result

/-! ## Without joined delimiters -/

theorem JoinFree.textLines_reindent_split (joinFree : JoinFree bytes) (style : Style)
    (first : Nat) {line : TextLine} (found : (textLines bytes)[number]? = some line) :
    (passedLines style bytes first number).length = number ∧
      ∃ below, textLines (Source.ofBytes (reindent style bytes first number)).bytes =
        passedLines style bytes first number ++ line :: below := by
  have keeps := joinFree.keepsLines_reindent style first number
  have stillThere : (textLines (reindent style bytes first number))[number]? = some line := by
    rw [keeps.outside number (by omega), found]
  obtain ⟨inText, isLine⟩ := List.getElem?_eq_some_iff.mp stillThere
  constructor
  · rw [passedLines, List.length_take, Nat.min_eq_left (Nat.le_of_lt inText)]
  · refine ⟨(textLines (reindent style bytes first number)).drop (number + 1), ?_⟩
    rw [passedLines, ← isLine, ← List.drop_eq_getElem_cons inText, List.take_append_drop]
    rfl

/-- A step adds the new line to those passed. -/
theorem JoinFree.passedLines_succ (joinFree : JoinFree bytes) (style : Style)
    (inRange : first ≤ number) {line : TextLine}
    (found : (textLines bytes)[number]? = some line) :
    passedLines style bytes first (number + 1) =
      passedLines style bytes first number ++
        [(Source.ofBytes (reindent style bytes first number)).newLine style
          (textOf (passedLines style bytes first number)).length line] := by
  obtain ⟨length, below, split⟩ := joinFree.textLines_reindent_split style first found
  have stillFree := (joinFree.keepsLines_reindent style first number).joinFree joinFree
  have lines := textLines_reindentLine split (fun joins => joins.not_joinFree stillFree) style
  rw [length, ← reindent_succ style bytes inRange] at lines
  rw [passedLines, lines, ← List.singleton_append, ← List.append_assoc, List.take_left']
  rw [List.length_append, length, List.length_singleton]

theorem reindentAll_eq (style : Style) (bytes : Bytes) :
    reindentAll style bytes = reindent style bytes 0 (textLines bytes).length := by
  rw [reindentAll, Source.lineCount_eq, Source.bytes_ofBytes]

/-- A run over all lines passes the whole text. -/
theorem JoinFree.textLines_reindentAll (joinFree : JoinFree bytes) (style : Style) :
    textLines (reindentAll style bytes) =
      passedLines style bytes 0 (textLines bytes).length := by
  have count := (joinFree.keepsLines_reindent style 0 (textLines bytes).length).count
  rw [passedLines, reindentAll_eq, List.take_of_length_le (Nat.le_of_eq count)]

/-- The lines that a run over all lines has passed are the first lines of its result. -/
theorem JoinFree.isPrefix_passedLines_reindentAll (joinFree : JoinFree bytes) (style : Style)
    (inText : number ≤ (textLines bytes).length) :
    passedLines style bytes 0 number <+: textLines (reindentAll style bytes) := by
  have later := joinFree.keepsLines_later style 0 inText
  rw [reindentAll_eq, passedLines, ← later.take_eq (Nat.le_refl _)]
  exact List.take_prefix _ _

/-- In the result of a run over all lines, every line stands below the lines passed as
the run has left it. -/
theorem JoinFree.exists_textLines_reindentAll (joinFree : JoinFree bytes) (style : Style)
    {line : TextLine} (found : (textLines bytes)[number]? = some line) :
    ∃ below, textLines (reindentAll style bytes) =
      passedLines style bytes 0 number ++
        (Source.ofBytes (reindent style bytes 0 number)).newLine style
          (textOf (passedLines style bytes 0 number)).length line :: below := by
  have inText := (List.getElem?_eq_some_iff.mp found).1
  obtain ⟨below, lines⟩ := joinFree.isPrefix_passedLines_reindentAll style inText
  refine ⟨below, ?_⟩
  rw [← lines, joinFree.passedLines_succ style (Nat.zero_le number) found, List.append_assoc,
    List.singleton_append]

end SchemeLayout
