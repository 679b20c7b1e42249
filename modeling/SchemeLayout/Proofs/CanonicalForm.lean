import SchemeLayout.Proofs.PassedLines

/-!
To indent all lines of a text gives a canonical form of the text.

Texts that differ in the indentation of their lines only are indented alike,
apart from lines inside strings and block comments, where the indentation is part
of the text.  The two runs go from line to line together: once they have passed
the same lines, they settle the next line in the same way, although the texts
below it, which the layout can see, still differ.
-/

set_option autoImplicit false

namespace SchemeLayout

instance (line other : TextLine) : Decidable (line.SameBody other) :=
  inferInstanceAs (Decidable (_ ∧ _))

/-- The texts have the same lines, up to the indentation of the lines that do not
start inside a string or a block comment of `result`. -/
structure DifferInIndentation (result left right : Bytes) : Prop where
  count : (textLines left).length = (textLines right).length
  sameBody : ∀ number < (textLines left).length, ∀ line ∈ (textLines left)[number]?,
    ∀ other ∈ (textLines right)[number]?, line.SameBody other
  sameInside : ∀ number < (textLines left).length,
    ∀ start ∈ (Source.ofBytes result).lineStartOf? number,
    (Source.ofBytes result).insideLiteral start = true →
    (textLines left)[number]? = (textLines right)[number]?

theorem TextLine.SameBody.indented_eq {line other : TextLine} (sameBody : line.SameBody other)
    (column : Nat) : line.indented column = other.indented column := by
  rw [TextLine.indented, TextLine.indented, sameBody.1, sameBody.2]

theorem settledLine_eq_of_sameBody {line other : TextLine} (sameBody : line.SameBody other)
    (style : Style) {above : Bytes}
    (sameInside : (Source.ofBytes above).insideLiteral above.length = true → line = other) :
    settledLine style above line = settledLine style above other := by
  unfold settledLine
  split
  next inside => exact sameInside inside
  next => rw [sameBody.indented_eq, sameBody.2]

variable {style : Style} {left right : Bytes}

/-- The next line that a run passes is settled below the lines above it. -/
theorem JoinFree.passedLines_succ_settled {bytes : Bytes} (joinFree : JoinFree bytes)
    (breakFree : style.table.BreakFree) {number : Nat} {line : TextLine}
    (found : (textLines bytes)[number]? = some line) :
    passedLines style bytes 0 (number + 1) = passedLines style bytes 0 number ++
      [settledLine style (textOf (passedLines style bytes 0 number)) line] := by
  obtain ⟨_, below, split⟩ := joinFree.textLines_reindent_split style 0 found
  rw [joinFree.passedLines_succ style (Nat.zero_le number) found,
    newLine_eq_settledLine breakFree split]

/-- Where the lines passed end inside a string or a block comment, the next line of
the result starts inside it. -/
theorem DifferInIndentation.line_eq (joinFree : JoinFree left)
    (differ : DifferInIndentation (reindentAll style left) left right)
    {number : Nat} {line other : TextLine} (found : (textLines left)[number]? = some line)
    (foundOther : (textLines right)[number]? = some other)
    (inside : (Source.ofBytes (textOf (passedLines style left 0 number))).insideLiteral
      (textOf (passedLines style left 0 number)).length = true) : line = other := by
  have inText := (List.getElem?_eq_some_iff.mp found).1
  obtain ⟨length, _⟩ := joinFree.textLines_reindent_split style 0 found
  obtain ⟨below, split⟩ := joinFree.exists_textLines_reindentAll style found
  rw [← Source.bytes_ofBytes (reindentAll style left)] at split
  have isStart := Source.lineStartOf?_of_textLines_eq split
  rw [length] at isStart
  have insideResult : (Source.ofBytes (reindentAll style left)).insideLiteral
      (textOf (passedLines style left 0 number)).length = true := by
    rwa [Source.insideLiteral_above (Source.bytes_eq_of_textLines_eq split)
      (endsWithBreak_textOf split)]
  have same := differ.sameInside number inText _ isStart insideResult
  rw [found, foundOther] at same
  exact Option.some.inj same

/-- Both runs pass the same lines. -/
theorem DifferInIndentation.passedLines_eq (breakFree : style.table.BreakFree)
    (leftFree : JoinFree left) (rightFree : JoinFree right)
    (differ : DifferInIndentation (reindentAll style left) left right) {number : Nat}
    (inText : number ≤ (textLines left).length) :
    passedLines style left 0 number = passedLines style right 0 number := by
  induction number with
  | zero => rfl
  | succ number inductionHypothesis =>
      have same := inductionHypothesis (Nat.le_of_succ_le inText)
      have found := List.getElem?_eq_getElem (l := textLines left) inText
      have inRight : number < (textLines right).length := differ.count ▸ inText
      have foundOther := List.getElem?_eq_getElem inRight
      rw [leftFree.passedLines_succ_settled breakFree found,
        rightFree.passedLines_succ_settled breakFree foundOther, ← same]
      congr 2
      apply settledLine_eq_of_sameBody
      · exact differ.sameBody number inText _ found _ foundOther
      · intro inside
        exact differ.line_eq leftFree found foundOther inside

/-- Two texts without split breaks that differ in the indentation of their lines only
are indented to the same text. -/
theorem reindentAll_eq_of_differInIndentation (style : Style) (breakFree : style.table.BreakFree)
    {left right : Bytes} (unsplit : hasSplitBreak left = false)
    (unsplitOther : hasSplitBreak right = false)
    (differ : DifferInIndentation (reindentAll style left) left right) :
    reindentAll style left = reindentAll style right := by
  have leftFree := joinFree_of_hasSplitBreak unsplit
  have rightFree := joinFree_of_hasSplitBreak unsplitOther
  have lines : textLines (reindentAll style left) = textLines (reindentAll style right) := by
    rw [leftFree.textLines_reindentAll style, rightFree.textLines_reindentAll style, ← differ.count]
    exact differ.passedLines_eq breakFree leftFree rightFree (Nat.le_refl _)
  rw [← textOf_textLines (reindentAll style left), lines, textOf_textLines]

/-- Two layouts of a definition with a string over two lines and a blank line. -/
theorem reindentAll_two_layouts :
    reindentAll {} (encode "(define (f x)\r\n\t(if x\n\"a\n b\"\n   \n  1))") =
        reindentAll {} (encode "  (define (f x)\r\n(if x\n     \"a\n b\"\n\n\t\t1))") ∧
      reindentAll {} (encode "(define (f x)\r\n\t(if x\n\"a\n b\"\n   \n  1))") =
        encode "(define (f x)\r\n  (if x\n      \"a\n b\"\n\n      1))" := by
  constructor
  · apply reindentAll_eq_of_differInIndentation
    · decide +kernel
    · decide +kernel
    · decide +kernel
    · constructor
      · decide +kernel
      · decide +kernel
      · decide +kernel
  · decide +kernel

end SchemeLayout
