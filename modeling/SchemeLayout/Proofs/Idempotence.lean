import SchemeLayout.Proofs.IndentationAbove
import SchemeLayout.Proofs.LineLayout

/-!
To indent lines anew a second time changes nothing.

The new indentation of a line is decided by the text above it and does not depend
on the old one, so a line that has been indented is settled.  It stays settled
while the lines below it are indented, because these leave the text above them
alone.  Settled lines are not changed any more.

All of this holds as long as line numbers keep their meaning, that is, for texts
without a break that is split by blanks.
-/

set_option autoImplicit false

namespace SchemeLayout

/-! ## Split breaks -/

/-- Whether the text contains a carriage return and a line feed with nothing but
spaces and tabs, at least one, between them. -/
def hasSplitBreak : Bytes → Bool
  | [] => false
  | byte :: rest =>
      (byte == carriageReturn && rest.head?.any isIndentByte &&
        (rest.dropWhile isIndentByte).head? == some lineFeed) || hasSplitBreak rest

theorem hasSplitBreak_append {blanks : Bytes} (notEmpty : blanks ≠ [])
    (isBlank : ∀ byte ∈ blanks, isIndentByte byte = true) (front rest : Bytes) :
    hasSplitBreak (front ++ carriageReturn :: (blanks ++ lineFeed :: rest)) = true := by
  induction front with
  | nil =>
      have first : (blanks ++ lineFeed :: rest).head?.any isIndentByte = true := by
        obtain ⟨byte, more, rfl⟩ := List.exists_cons_of_ne_nil notEmpty
        exact isBlank byte (by simp)
      have stop : ((blanks ++ lineFeed :: rest).dropWhile isIndentByte).head? = some lineFeed := by
        rw [List.dropWhile_append_of_pos isBlank]
        rfl
      rw [List.nil_append, hasSplitBreak, first, stop]
      rfl
  | cons byte front inductionHypothesis =>
      rw [List.cons_append, hasSplitBreak, inductionHypothesis, Bool.or_true]

/-- No blank line stands between a carriage return and a line feed. -/
def JoinFree (bytes : Bytes) : Prop :=
  ∀ (number : Nat) (previous blank : TextLine), (textLines bytes)[number]? = some previous →
    (textLines bytes)[number + 1]? = some blank → previous.delimiter = [carriageReturn] →
    blank.delimiter = [lineFeed] → blank.body ≠ []

theorem joinFree_of_hasSplitBreak {bytes : Bytes} (unsplit : hasSplitBreak bytes = false) :
    JoinFree bytes := by
  intro number previous blank foundPrevious foundBlank isReturn isFeed isBlank
  obtain ⟨inText, isLine⟩ := List.getElem?_eq_some_iff.mp foundPrevious
  obtain ⟨nextInText, isNext⟩ := List.getElem?_eq_some_iff.mp foundBlank
  have parts := List.take_append_drop number (textLines bytes)
  rw [List.drop_eq_getElem_cons inText, List.drop_eq_getElem_cons nextInText, isLine,
    isNext] at parts
  have isLines := isLines_textLines bytes
  rw [← parts] at isLines
  have notEmpty : blank.content ≠ [] := by
    intro empty
    apply isLines.precedes.2 isReturn
    rw [TextLine.bytes, empty, isFeed]
    rfl
  have allBlank : ∀ byte ∈ blank.content, isIndentByte byte = true := by
    have all := List.any_dropWhile (l := blank.content) (p := isIndentByte)
    rw [← TextLine.body, isBlank] at all
    simpa using all
  have found := hasSplitBreak_append notEmpty allBlank
    (textOf ((textLines bytes).take number) ++ previous.content)
    (textOf ((textLines bytes).drop (number + 1 + 1)))
  have text := textOf_textLines bytes
  rw [← parts] at text
  simp only [textOf_append, textOf_cons, TextLine.bytes, isReturn, isFeed, List.append_assoc,
    List.singleton_append] at text found
  rw [text, unsplit] at found
  contradiction

theorem JoinsBreaks.not_joinFree {source : Source} {number : Nat}
    (joins : JoinsBreaks source number) : ¬ JoinFree source.bytes := by
  obtain ⟨above, previous, blank, below, split, rfl, isReturn, isBlank, isFeed, _⟩ := joins
  intro joinFree
  refine joinFree above.length previous blank ?_ ?_ isReturn isFeed isBlank
  · simp [split]
  · simp [split]

theorem KeepsLines.joinFree {first last : Nat} {old new : Bytes}
    (keeps : KeepsLines first last old new) (joinFree : JoinFree old) : JoinFree new := by
  intro number previous blank foundPrevious foundBlank isReturn isFeed
  have inNew := (List.getElem?_eq_some_iff.mp foundBlank).1
  have inOld : number + 1 < (textLines old).length := by rwa [keeps.count] at inNew
  have oldPrevious := List.getElem?_eq_getElem (Nat.lt_of_succ_lt inOld)
  have oldBlank := List.getElem?_eq_getElem inOld
  obtain ⟨sameReturn, _⟩ := keeps.sameBody _ _ _ oldPrevious foundPrevious
  obtain ⟨sameFeed, sameBody⟩ := keeps.sameBody _ _ _ oldBlank foundBlank
  rw [sameBody]
  exact joinFree number _ _ oldPrevious oldBlank (sameReturn ▸ isReturn) (sameFeed ▸ isFeed)

theorem JoinFree.keepsLines_reindent {bytes : Bytes} (joinFree : JoinFree bytes) (style : Style)
    (first last : Nat) : KeepsLines first last bytes (reindent style bytes first last) := by
  induction last using Nat.strongRecOn with
  | _ last inductionHypothesis =>
      apply SchemeLayout.keepsLines_reindent
      intro number _ isBefore joins
      exact joins.not_joinFree ((inductionHypothesis number isBefore).joinFree joinFree)

theorem KeepsLines.take_eq {first last number : Nat} {old new : Bytes}
    (keeps : KeepsLines first last old new) (isAbove : number ≤ first) :
    (textLines new).take number = (textLines old).take number := by
  apply List.ext_getElem?
  intro index
  rw [List.getElem?_take, List.getElem?_take]
  split
  · exact keeps.outside index (by omega)
  · rfl

/-- To go on from one line to a later one keeps the lines up to there. -/
theorem JoinFree.keepsLines_later {bytes : Bytes} (joinFree : JoinFree bytes) (style : Style)
    (first : Nat) {number last : Nat} (isLater : number ≤ last) :
    KeepsLines number last (reindent style bytes first number)
      (reindent style bytes first last) := by
  induction isLater with
  | refl => exact .refl ..
  | @step last isLater inductionHypothesis =>
      apply (inductionHypothesis.mono (Nat.le_refl _) (Nat.le_succ last)).trans
      by_cases inRange : first ≤ last
      · have stillFree := (joinFree.keepsLines_reindent style first last).joinFree joinFree
        have noJoin : ¬ JoinsBreaks (.ofBytes (reindent style bytes first last)) last :=
          fun joins => joins.not_joinFree stillFree
        rw [reindent_succ style bytes inRange]
        exact (keepsLines_reindentLine noJoin style).mono isLater (Nat.le_refl _)
      · rw [reindent_of_le (by omega), reindent_of_le (by omega)]
        exact .refl ..

/-! ## Settled lines -/

/-- A line as it is below a given text. -/
def settledLine (style : Style) (above : Bytes) (line : TextLine) : TextLine :=
  if (Source.ofBytes above).insideLiteral above.length then line
  else line.indented
    (if line.body = [] then 0 else ((Source.ofBytes above).indentation style above.length).toNat)

theorem settledLine_settledLine (style : Style) (above : Bytes) (line : TextLine) :
    settledLine style above (settledLine style above line) = settledLine style above line := by
  unfold settledLine
  split
  · rfl
  · rw [TextLine.body_indented, TextLine.indented, TextLine.body_indented]
    rfl

/-- The line is as it is below the lines above it. -/
def Settled (style : Style) (bytes : Bytes) (number : Nat) : Prop :=
  ∀ above line below, textLines bytes = above ++ line :: below → above.length = number →
    settledLine style (textOf above) line = line

theorem endsWithBreak_textOf {bytes : Bytes} {above below : List TextLine} {line : TextLine}
    (split : textLines bytes = above ++ line :: below) : EndsWithBreak (textOf above) := by
  have isLines := isLines_textLines bytes
  rw [split] at isLines
  rcases List.eq_nil_or_concat above with rfl | ⟨front, previous, rfl⟩
  · intro byte member
    contradiction
  · rw [List.concat_eq_append] at isLines ⊢
    rw [List.append_assoc, List.singleton_append] at isLines
    intro byte member
    rw [textOf_append, textOf_cons, textOf_nil, List.append_nil, TextLine.bytes] at member
    rcases isLines.precedes.1 with isDelimiter | isDelimiter | isDelimiter <;>
      simp [isDelimiter] at member <;> simp [member]

section Step

variable {style : Style} {source : Source} {number : Nat}

/-- The new line that a step writes is decided by the text above. -/
theorem newLine_eq_settledLine (breakFree : style.table.BreakFree) {above below : List TextLine}
    {line : TextLine} (split : textLines source.bytes = above ++ line :: below) :
    source.newLine style (textOf above).length line = settledLine style (textOf above) line := by
  have ended := endsWithBreak_textOf split
  have text := Source.bytes_eq_of_textLines_eq split
  rw [Source.newLine, settledLine, Source.insideLiteral_above text ended,
    Source.lineColumn_start split, Source.indentation_above breakFree text ended]

/-- A step settles its line. -/
theorem settled_reindentLine (breakFree : style.table.BreakFree)
    (joinFree : JoinFree source.bytes) :
    Settled style (reindentLine style source number).bytes number := by
  intro above line below split sameLength
  by_cases inText : number < (textLines source.bytes).length
  · obtain ⟨front, old, rest, oldSplit, rfl⟩ := exists_textLines_split inText
    have lines := textLines_reindentLine oldSplit (fun joins => joins.not_joinFree joinFree) style
    rw [newLine_eq_settledLine breakFree oldSplit, split] at lines
    obtain ⟨rfl, sameRest⟩ := List.append_inj lines sameLength
    obtain ⟨rfl, _⟩ := List.cons.inj sameRest
    exact settledLine_settledLine style (textOf above) old
  · rw [bytes_reindentLine_of_length_le style (by omega)] at split
    rw [split, List.length_append, List.length_cons] at inText
    omega

/-- A step leaves the lines above it settled. -/
theorem Settled.of_keepsLines {old new : Bytes} {first last : Nat}
    (settled : Settled style old number) (keeps : KeepsLines first last old new)
    (isAbove : number < first) : Settled style new number := by
  intro above line below split sameLength
  have same : (textLines old).take (number + 1) = above ++ [line] := by
    rw [← keeps.take_eq isAbove, split, ← sameLength]
    simp [List.take_append, List.take_of_length_le]
  have parts := List.take_append_drop (number + 1) (textLines old)
  rw [same, List.append_assoc, List.singleton_append] at parts
  exact settled above line _ parts.symm sameLength

/-- A step does not change a settled line. -/
theorem Settled.bytes_reindentLine (settled : Settled style source.bytes number)
    (breakFree : style.table.BreakFree) (joinFree : JoinFree source.bytes) :
    (reindentLine style source number).bytes = source.bytes := by
  by_cases inText : number < (textLines source.bytes).length
  · obtain ⟨above, line, below, split, rfl⟩ := exists_textLines_split inText
    have lines := textLines_reindentLine split (fun joins => joins.not_joinFree joinFree) style
    rw [newLine_eq_settledLine breakFree split, settled above line below split rfl, ← split] at lines
    rw [← textOf_textLines (reindentLine style source above.length).bytes, lines, textOf_textLines]
  · exact bytes_reindentLine_of_length_le style (by omega)

end Step

/-! ## Whole ranges -/

section Range

variable {style : Style} {bytes : Bytes} {first last : Nat}

theorem settled_reindent (breakFree : style.table.BreakFree) (joinFree : JoinFree bytes)
    {number : Nat} (inRange : first ≤ number) (isBefore : number < last) :
    Settled style (reindent style bytes first last) number := by
  induction last with
  | zero => contradiction
  | succ last inductionHypothesis =>
      have stillFree := (joinFree.keepsLines_reindent style first last).joinFree joinFree
      rw [reindent_succ style bytes (by omega)]
      by_cases isLast : number = last
      · subst isLast
        exact settled_reindentLine breakFree stillFree
      · have noJoin : ¬ JoinsBreaks (.ofBytes (reindent style bytes first last)) last :=
          fun joins => joins.not_joinFree stillFree
        exact (inductionHypothesis (by omega)).of_keepsLines
          (keepsLines_reindentLine noJoin style) (by omega)

theorem reindent_of_settled (breakFree : style.table.BreakFree) (joinFree : JoinFree bytes)
    (settled : ∀ number, first ≤ number → number < last → Settled style bytes number) :
    reindent style bytes first last = bytes := by
  induction last with
  | zero => exact reindent_of_le (Nat.zero_le first)
  | succ last inductionHypothesis =>
      by_cases inRange : first ≤ last
      · have unchanged := inductionHypothesis fun number inRange isBefore =>
          settled number inRange (by omega)
        rw [reindent_succ style bytes inRange, unchanged]
        exact (settled last inRange (by omega)).bytes_reindentLine breakFree joinFree
      · exact reindent_of_le (by omega)

/-- To indent a range of lines a second time changes nothing, for texts without a
split break and tables without a line break in a symbol. -/
theorem reindent_reindent (style : Style) (breakFree : style.table.BreakFree) (bytes : Bytes)
    (unsplit : hasSplitBreak bytes = false) (first last : Nat) :
    reindent style (reindent style bytes first last) first last =
      reindent style bytes first last := by
  have joinFree := joinFree_of_hasSplitBreak unsplit
  have stillFree := (joinFree.keepsLines_reindent style first last).joinFree joinFree
  exact reindent_of_settled breakFree stillFree fun number inRange isBefore =>
    settled_reindent breakFree joinFree inRange isBefore

/-- A text with all three delimiters, a string over two lines and an open list. -/
theorem reindent_reindent_mixed :
    reindent {} (encode "(define (f x)\r\n\t(if x\n\"a\r b\"\r  ;c\n   'y") 0 9 =
        encode "(define (f x)\r\n  (if x\n      \"a\r b\"\r      ;c\n      'y" ∧
      reindent {} (encode "(define (f x)\r\n  (if x\n      \"a\r b\"\r      ;c\n      'y") 0 9 =
        encode "(define (f x)\r\n  (if x\n      \"a\r b\"\r      ;c\n      'y" := by
  have once : reindent {} (encode "(define (f x)\r\n\t(if x\n\"a\r b\"\r  ;c\n   'y") 0 9 =
      encode "(define (f x)\r\n  (if x\n      \"a\r b\"\r      ;c\n      'y" := by
    decide +kernel
  refine ⟨once, ?_⟩
  rw [← once]
  exact reindent_reindent {} (by decide +kernel) _ (by decide +kernel) 0 9

end Range

end SchemeLayout
