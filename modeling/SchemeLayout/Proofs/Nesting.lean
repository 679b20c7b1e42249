import SchemeLayout.Proofs.LineColumns
import SchemeLayout.Proofs.PassedLines

/-!
Indentation reflects nesting.

In a text whose lines have all been indented, a byte stands further right than
every list around it opens.  The proof goes from line to line.  The forms in front
of a line stand further right than their list, so whatever form, policy or
fallback decides on the column of the line, the line is set in further than the
list as well; and what stands on the line comes behind its indentation.
-/

set_option autoImplicit false

namespace SchemeLayout

/-! ## The lists around a position -/

/-- The list that opens at `opening` is reached by leaving one list after the other. -/
inductive Around (classes : List ByteClass) (opening : Nat) : Nat → Prop where
  | innermost {pos : Nat} : openBackward classes pos 0 = some opening → Around classes opening pos
  | outer {inner pos : Nat} : openBackward classes pos 0 = some inner →
      Around classes opening inner → Around classes opening pos

namespace Around

variable {classes short : List ByteClass} {opening pos : Nat}

theorem isOpening (around : Around classes opening pos) : classes[opening]? = some .opening := by
  induction around with
  | innermost found => exact getElem?_of_openBackward found
  | outer _ _ inductionHypothesis => exact inductionHypothesis

theorem lt (around : Around classes opening pos) : opening < pos := by
  induction around with
  | innermost found => exact (openBackward_lt found).1
  | outer found _ inductionHypothesis =>
      exact Nat.lt_trans inductionHypothesis (openBackward_lt found).1

theorem trans {inner : Nat} (outside : Around classes opening inner)
    (inside : Around classes inner pos) : Around classes opening pos := by
  induction inside with
  | innermost found => exact .outer found outside
  | outer found _ inductionHypothesis => exact .outer found inductionHypothesis

theorem of_encloses (encloses : Encloses classes opening pos) : Around classes opening pos := by
  induction pos using Nat.strongRecOn with
  | _ pos inductionHypothesis =>
      obtain ⟨inner, found, isWithin⟩ := exists_open_of_encloses encloses
      rcases Nat.eq_or_lt_of_le isWithin with rfl | isOuter
      · exact .innermost found
      · have isBefore := (openBackward_lt found).1
        refine .outer found (inductionHypothesis inner isBefore ⟨isOuter, encloses.2.1, ?_⟩)
        intro stop closed
        exact Nat.lt_trans isBefore (encloses.2.2 stop closed)

/-- A list around a position is also around the earlier positions inside it. -/
theorem of_openBackward_le {earlier : Nat} (within : pos ≤ classes.length)
    (found : openBackward classes pos 0 = some opening) (behind : opening < earlier)
    (isEarlier : earlier ≤ pos) : Around classes opening earlier := by
  obtain ⟨_, isOpening, closesAfter⟩ := encloses_of_openBackward within found
  refine of_encloses ⟨behind, isOpening, ?_⟩
  intro stop closed
  exact Nat.lt_of_le_of_lt isEarlier (closesAfter stop closed)

theorem of_le {earlier : Nat} (around : Around classes opening pos) (within : pos ≤ classes.length)
    (behind : opening < earlier) (isEarlier : earlier ≤ pos) :
    Around classes opening earlier := by
  induction around with
  | innermost found => exact of_openBackward_le within found behind isEarlier
  | @outer inner pos found outside inductionHypothesis =>
      by_cases isBefore : inner < earlier
      · exact outside.trans (of_openBackward_le within found isBefore isEarlier)
      · apply inductionHypothesis
        · exact Nat.le_of_lt (openBackward_lt found).2
        · exact Nat.le_of_not_lt isBefore

theorem of_openBackward_eq {other : List ByteClass} {bound : Nat}
    (same : ∀ earlier ≤ bound, openBackward classes earlier 0 = openBackward other earlier 0)
    (around : Around classes opening pos) (within : pos ≤ bound) : Around other opening pos := by
  induction around with
  | innermost found => exact .innermost ((same _ within).symm.trans found)
  | outer found _ inductionHypothesis =>
      refine .outer ((same _ within).symm.trans found) (inductionHypothesis ?_)
      exact Nat.le_trans (Nat.le_of_lt (openBackward_lt found).1) within

end Around

/-! ## The forms in front of a line -/

section Forms

variable {classes : List ByteClass} {offset : Nat} {form : Form}

theorem exists_formBackward_of_mem (member : form ∈ formsBefore classes offset) :
    ∃ pos, formBackward classes pos = some form := by
  induction offset using Nat.strongRecOn with
  | _ offset inductionHypothesis =>
      rw [formsBefore_eq] at member
      split at member
      next => contradiction
      next first found =>
        have bounds := formBackward_bounds found
        rcases List.mem_cons.mp member with rfl | isBefore
        · exact ⟨offset, found⟩
        · exact inductionHypothesis first.start (by omega) isBefore

end Forms

namespace Source

variable {source : Source}

/-- A form inside a list does not start with white space. -/
theorem exists_byte_of_form {pos opening : Nat} {form : Form}
    (found : formBackward source.classes pos = some form)
    (inList : openBackward source.classes form.start 0 = some opening) :
    ∃ byte, source.bytes[form.start]? = some byte ∧ (ByteRole.of byte).isWhite = false := by
  obtain ⟨reading, read, rfl⟩ := Option.map_eq_some_iff.mp found
  rw [Reading.start_formBefore] at inList ⊢
  rw [before_eq] at read
  have length : (source.classes.take pos).length = min pos source.classes.length :=
    List.length_take
  rcases (readBackward_reverse_eq_some_iff.mp read).exists_first with
    whole | ⟨front, cls, rest, split, isStart, significant, apart⟩
  · have isBefore := (openBackward_lt inList).1
    omega
  · rw [length] at isStart
    rw [isStart]
    have isClass : source.classes[front.length]? = some cls := by
      have inside := congrArg List.length split
      rw [List.length_append, List.length_cons] at inside
      have read := congrArg (·[front.length]?) split
      simpa [List.getElem?_take, show front.length < pos by omega] using read
    have inText : front.length < source.bytes.length := by
      have bound := (List.getElem?_eq_some_iff.mp isClass).1
      rwa [length_classes] at bound
    refine ⟨source.bytes[front.length], List.getElem?_eq_getElem inText, ?_⟩
    rw [Bool.eq_false_iff]
    intro white
    have isFront := take_of_take_eq split
    rw [source.classes_eq] at isClass isFront
    have joins := joined_classify_of_isWhite (List.getElem?_eq_getElem inText) white isClass
      significant
    rw [isFront, apart] at joins
    contradiction

end Source

theorem runLength_append_of_lt {wanted : ByteClass → Bool} {classes : List ByteClass}
    (stops : runLength wanted classes < classes.length) (later : List ByteClass) :
    runLength wanted (classes ++ later) = runLength wanted classes := by
  rw [runLength_eq] at stops
  rw [runLength_eq, runLength_eq, List.takeWhile_append, if_neg (Nat.ne_of_lt stops)]

namespace Source

variable {source : Source} {style : Style} {offset opening : Nat}

/-- The head of a list starts where the first of the forms in front of a line does,
also where it reaches over to the line. -/
theorem exists_form_at_head (around : openBackward source.classes offset 0 = some opening)
    (notFirst : formsBefore source.classes offset ≠ []) {head : FormSpan}
    (isHead : source.head? opening = some head) :
    ∃ form ∈ formsBefore source.classes offset, head.start = form.start := by
  obtain ⟨front, inner, split, balanced, rfl⟩ := openBackward_eq_some_iff.mp around
  have children := formsBefore_eq_reverse_of_list split balanced
  rw [children, ne_eq, List.reverse_eq_nil_iff] at notFirst
  rw [head?_of_opening (getElem?_of_openBackward around), formAfter?,
    Option.map_eq_some_iff] at isHead
  obtain ⟨form, isForm, rfl⟩ := isHead
  obtain ⟨reading, read, rfl⟩ := Option.map_eq_some_iff.mp isForm
  have after : source.classes.drop (front.length + 1) = inner ++ source.classes.drop offset := by
    rw [← List.drop_drop, drop_of_take_eq split]
    rfl
  have isInside := (List.getElem?_eq_some_iff.mp (getElem?_of_openBackward around)).1
  cases first : readForward inner with
  | none => exact absurd (formsAhead_of_none _ first) notFirst
  | some short =>
      have bounds := readForward_bounds first
      simp only [Reading.size] at bounds
      have sameGap : reading.gap = short.gap := by
        rw [gap_of_readForward read, after, gap_of_readForward first]
        apply runLength_append_of_lt
        rw [← gap_of_readForward first]
        omega
      refine ⟨short.formAfter (front.length + 1), ?_, ?_⟩
      · rw [children, formsAhead_of_some _ first]
        simp
      · simp only [start_spanOf, Reading.formAfter, sameGap]
        omega

theorem formsBefore_eq_cons {last : Form}
    (isLast : formBackward source.classes offset = some last) :
    formsBefore source.classes offset = last :: formsBefore source.classes last.start := by
  rw [formsBefore_eq, isLast]

theorem exists_form_at_leftmost {last : Form}
    (isLast : formBackward source.classes offset = some last) :
    ∃ form ∈ formsBefore source.classes offset, source.leftmostOnLine last.start = form.start := by
  have either : source.leftmostOnLine last.start ∈
      (formsBefore source.classes offset).map Form.start := by
    rw [formsBefore_eq_cons isLast, List.map_cons, leftmostOnLine, walkLeft_eq]
    rcases List.mem_cons.mp List.getLastD_mem_cons with isPrevious | onLine
    · rw [isPrevious]
      exact List.mem_cons_self
    · exact List.dropLast_subset _ ((List.takeWhile_prefix _).subset onLine)
  obtain ⟨form, member, same⟩ := List.mem_map.mp either
  exact ⟨form, member, same.symm⟩

/-- A line in a list is set in from the bracket, or aligned with a form of the list in front
of it. -/
theorem exists_alignment (table : PolicyTable)
    (around : openBackward source.classes offset 0 = some opening) :
    ∃ alignment, source.alignment? table offset = some alignment ∧
      (alignment.pos = opening ∧ 0 < alignment.distance.toNat ∨
        ∃ form ∈ formsBefore source.classes offset, alignment.pos = form.start) := by
  cases isLast : formBackward source.classes offset with
  | none =>
      refine ⟨⟨opening, 1⟩, ?_, .inl ⟨rfl, Nat.one_pos⟩⟩
      rw [alignment?_of_nothing table isLast, around, Option.map_some]
  | some last =>
      have inList := (openBackward_formBackward isLast).trans around
      have forms := formsBefore_eq_cons isLast
      have isForm : last ∈ formsBefore source.classes offset := by simp [forms]
      simp only [alignment?, anchor, formBefore?, isLast, Option.map_some, enclosing?,
        start_spanOf, inList, anchorInList]
      cases isHead : source.head? opening with
      | none => exact ⟨_, rfl, .inr ⟨last, isForm, rfl⟩⟩
      | some head =>
          cases kind : head.kind with
          | list =>
              obtain ⟨first, isFirst, sameStart⟩ :=
                exists_form_at_head around (by simp [forms]) isHead
              simp only [kind]
              exact ⟨_, rfl, .inr ⟨first, isFirst, sameStart⟩⟩
          | string | atom =>
              simp only [kind]
              exact ⟨_, rfl, .inr ⟨last, isForm, rfl⟩⟩
          | symbol =>
              simp only [kind]
              refine ⟨_, rfl, ?_⟩
              generalize table.policyFor (source.slice head.start head.stop) = policy
              cases fixed : policy.fixedOffset? with
              | some distance =>
                  rw [policyAlignment_of_fixedOffset? fixed]
                  exact .inl ⟨rfl, Policy.toNat_pos_of_fixedOffset? fixed⟩
              | none =>
                  cases policy with
                  | sequence | definition | branch => contradiction
                  | binding threshold =>
                      rw [policyAlignment_binding]
                      refine .inl ⟨rfl, ?_⟩
                      simp only
                      split <;> decide
                  | standard => exact .inr (exists_form_at_leftmost isLast)
                  | verbatim => exact .inr ⟨last, isForm, rfl⟩

/-- A line is set in further than its list, if the forms of the list in front of it are. -/
theorem columnSum_lt_indentationSum
    (around : openBackward source.classes offset 0 = some opening)
    (further : ∀ form ∈ formsBefore source.classes offset,
      source.columnSum style.config.tabWidth opening <
        source.columnSum style.config.tabWidth form.start) :
    source.columnSum style.config.tabWidth opening < source.indentationSum style offset := by
  obtain ⟨alignment, found, isBracket | ⟨form, isForm, isStart⟩⟩ :=
    exists_alignment style.table around
  · simp only [indentationSum, found, isBracket.1]
    exact Nat.lt_add_of_pos_right isBracket.2
  · simp only [indentationSum, found, isStart]
    exact Nat.lt_of_lt_of_le (further form isForm) (Nat.le_add_right _ _)

end Source

/-! ## From line to line -/

/-- Up to `bound`, what is not white space stands further right than the lists around
it open. -/
def ReflectsNesting (source : Source) (tabWidth : UInt32) (bound : Nat) : Prop :=
  ∀ pos < bound, ∀ byte ∈ source.bytes[pos]?, (ByteRole.of byte).isWhite = false →
    ∀ opening, Around source.classes opening pos →
      source.columnSum tabWidth opening < source.columnSum tabWidth pos

namespace ReflectsNesting

variable {source : Source} {tabWidth : UInt32}

theorem of_opening {bound : Nat} (reflects : ReflectsNesting source tabWidth bound)
    {opening inner : Nat} (isBefore : inner < bound)
    (isOpening : source.classes[inner]? = some .opening)
    (around : Around source.classes opening inner) :
    source.columnSum tabWidth opening < source.columnSum tabWidth inner := by
  rw [source.classes_eq] at isOpening
  obtain ⟨byte, found, isBracket⟩ := exists_opening_of_classify isOpening
  exact reflects inner isBefore byte found (by rw [isBracket]; rfl) opening around

theorem openBackward_above {other : Source} {above below otherBelow : Bytes}
    (split : source.bytes = above ++ below) (otherSplit : other.bytes = above ++ otherBelow)
    (ended : EndsWithBreak above) {pos : Nat} (within : pos ≤ above.length) :
    openBackward source.classes pos 0 = openBackward other.classes pos 0 := by
  have length : (Source.ofBytes above).classes.length = above.length := Source.length_classes _
  rw [← length] at within
  rw [openBackward_of_take_eq (Source.take_classes_above split ended) within,
    openBackward_of_take_eq (Source.take_classes_above otherSplit ended) within]

/-- Texts that start with the same lines reflect nesting on these lines alike. -/
theorem of_same_above {other : Source} {above below otherBelow : Bytes}
    (reflects : ReflectsNesting source tabWidth above.length)
    (split : source.bytes = above ++ below) (otherSplit : other.bytes = above ++ otherBelow)
    (ended : EndsWithBreak above) : ReflectsNesting other tabWidth above.length := by
  intro pos isAbove byte found notWhite opening around
  have foundToo : byte ∈ source.bytes[pos]? := by
    rw [split, List.getElem?_append_left isAbove]
    rwa [otherSplit, List.getElem?_append_left isAbove] at found
  have further := reflects pos isAbove byte foundToo notWhite opening
    (around.of_openBackward_eq (fun _ within => openBackward_above otherSplit split ended within)
      (Nat.le_of_lt isAbove))
  have openingAbove := Nat.lt_trans around.lt isAbove
  rwa [Source.columnSum_above split _ isAbove, Source.columnSum_above split _ openingAbove,
    ← Source.columnSum_above otherSplit _ isAbove,
    ← Source.columnSum_above otherSplit _ openingAbove] at further

/-- A line below lines that reflect nesting is set in further than its list. -/
theorem columnSum_lt_indentationSum {style : Style} {offset opening : Nat}
    (reflects : ReflectsNesting source style.config.tabWidth offset)
    (around : openBackward source.classes offset 0 = some opening) :
    source.columnSum style.config.tabWidth opening < source.indentationSum style offset := by
  apply Source.columnSum_lt_indentationSum around
  intro form member
  obtain ⟨front, inner, split, balanced, rfl⟩ := openBackward_eq_some_iff.mp around
  have children := formsBefore_eq_reverse_of_list split balanced
  have isChild : form ∈ formsAhead (front.length + 1) inner := by
    rwa [children, List.mem_reverse] at member
  have inList := openBackward_start split balanced isChild
  obtain ⟨pos, isForm⟩ := exists_formBackward_of_mem member
  obtain ⟨byte, found, notWhite⟩ := Source.exists_byte_of_form isForm inList
  have bounds := formsAhead_bounds isChild
  have size := congrArg List.length split
  simp only [List.length_take, List.length_append, List.length_cons] at size
  exact reflects form.start (by omega) byte found notWhite _ (.innermost inList)

/-- The same holds for the column that is computed while the lines below differ. -/
theorem columnSum_lt_indentationSum_of_same_above {style : Style} {other : Source}
    {above below otherBelow : Bytes} {opening : Nat}
    (reflects : ReflectsNesting source style.config.tabWidth above.length)
    (split : source.bytes = above ++ below) (otherSplit : other.bytes = above ++ otherBelow)
    (ended : EndsWithBreak above)
    (around : openBackward source.classes above.length 0 = some opening) :
    source.columnSum style.config.tabWidth opening < other.indentationSum style above.length := by
  have isAbove := (openBackward_lt around).1
  have sameList := openBackward_above split otherSplit ended (Nat.le_refl _)
  have further := (reflects.of_same_above split otherSplit ended).columnSum_lt_indentationSum
    (sameList.symm.trans around)
  rwa [Source.columnSum_above otherSplit _ isAbove, ← Source.columnSum_above split _ isAbove]
    at further

section Line

variable {above below : List TextLine} {line : TextLine} {column : Nat}
  (split : textLines source.bytes = above ++ line.indented column :: below)

include split

/-- What is not white space stands behind the indentation of its line. -/
theorem column_le_of_not_isWhite {index : Nat} {byte : UInt8}
    (found : (line.indented column).bytes[index]? = some byte)
    (notWhite : (ByteRole.of byte).isWhite = false) : column ≤ index ∧ line.body ≠ [] := by
  have isLines := isLines_textLines source.bytes
  rw [split] at isLines
  rw [TextLine.bytes, TextLine.indented, List.append_assoc] at found
  have behind : column ≤ index := by
    apply Nat.le_of_not_lt
    intro inside
    rw [List.getElem?_append_left (by rwa [length_spaces])] at found
    rw [List.eq_of_mem_replicate (List.mem_of_getElem? found)] at notWhite
    contradiction
  refine ⟨behind, ?_⟩
  intro isBlank
  rw [List.getElem?_append_right (by rwa [length_spaces]), isBlank, List.nil_append] at found
  rcases isLines.of_append.mem_delimiter (List.mem_of_getElem? found) with rfl | rfl <;>
    contradiction

theorem le_columnSum_of_le {index : Nat} (behind : column ≤ index)
    (onLine : index < (line.indented column).bytes.length) :
    column ≤ source.columnSum tabWidth ((textOf above).length + index) := by
  have front : (line.indented column).bytes.take column = spaces column := by
    rw [TextLine.bytes, TextLine.indented, List.append_assoc,
      List.take_left' (length_spaces column)]
  have longer := bytesSum_take_le tabWidth (line.indented column).bytes behind
  rwa [front, bytesSum_spaces, ← Source.columnSum_of_line split tabWidth onLine] at longer

/-- A line that is set in further than its list reflects nesting as well. -/
theorem extend (reflects : ReflectsNesting source tabWidth (textOf above).length)
    (further : line.body ≠ [] → ∀ opening,
      openBackward source.classes (textOf above).length 0 = some opening →
        source.columnSum tabWidth opening < column) :
    ReflectsNesting source tabWidth
      ((textOf above).length + (line.indented column).bytes.length) := by
  have text := Source.bytes_eq_of_textLines_eq split
  intro pos isBefore byte found notWhite opening around
  by_cases isAbove : pos < (textOf above).length
  · exact reflects pos isAbove byte found notWhite opening around
  · obtain ⟨index, rfl⟩ := Nat.exists_eq_add_of_le (Nat.le_of_not_lt isAbove)
    have onLine : index < (line.indented column).bytes.length := Nat.lt_of_add_lt_add_left isBefore
    have foundOnLine : (line.indented column).bytes[index]? = some byte := by
      rwa [text, List.getElem?_append_right (Nat.le_add_right _ _), Nat.add_sub_cancel_left,
        List.getElem?_append_left onLine] at found
    obtain ⟨isBehind, notBlank⟩ := column_le_of_not_isWhite split foundOnLine notWhite
    have within : (textOf above).length + index ≤ source.classes.length := by
      rw [source.length_classes, Source.length, text, List.length_append, List.length_append]
      omega
    by_cases openedAbove : opening < (textOf above).length
    · apply Nat.lt_of_lt_of_le _ (le_columnSum_of_le split isBehind onLine)
      cases around.of_le within openedAbove (Nat.le_add_right _ _) with
      | innermost isInnermost => exact further notBlank opening isInnermost
      | @outer inner _ isInnermost outside =>
          have isOpening := getElem?_of_openBackward isInnermost
          exact Nat.lt_trans
            (reflects.of_opening (openBackward_lt isInnermost).1 isOpening outside)
            (further notBlank inner isInnermost)
    · obtain ⟨start, rfl⟩ := Nat.exists_eq_add_of_le (Nat.le_of_not_lt openedAbove)
      exact Source.columnSum_lt_of_opening split tabWidth around.isOpening
        (Nat.lt_of_add_lt_add_left around.lt) onLine

end Line

end ReflectsNesting

section Run

variable {style : Style} {bytes : Bytes}

/-- Every sum that a run over all lines computes for a line that it rewrites fits a word. -/
def SumsFit (style : Style) (bytes : Bytes) : Prop :=
  ∀ number < (Source.ofBytes bytes).lineCount,
    ∀ start ∈ (Source.ofBytes (reindent style bytes 0 number)).lineStartOf? number,
      (Source.ofBytes (reindent style bytes 0 number)).Rewrites number start →
        (Source.ofBytes (reindent style bytes 0 number)).indentationSum style start < UInt32.size

instance (style : Style) (bytes : Bytes) : Decidable (SumsFit style bytes) :=
  inferInstanceAs (Decidable (∀ _ < _, ∀ _ ∈ _, _ → _))

/-- The lines that a run has passed reflect nesting, as long as none of them starts
inside a string or a block comment and no sum overflows. -/
theorem reflectsNesting_passedLines (joinFree : JoinFree bytes) (sumsFit : SumsFit style bytes)
    (outside : ∀ start ∈ (Source.ofBytes (reindentAll style bytes)).starts,
      (Source.ofBytes (reindentAll style bytes)).insideLiteral start = false)
    {number : Nat} (inText : number ≤ (textLines bytes).length) :
    ReflectsNesting (.ofBytes (reindentAll style bytes)) style.config.tabWidth
      (textOf (passedLines style bytes 0 number)).length := by
  induction number with
  | zero =>
      intro pos impossible
      contradiction
  | succ number inductionHypothesis =>
      have reflects := inductionHypothesis (Nat.le_of_succ_le inText)
      have found := List.getElem?_eq_getElem (l := textLines bytes) inText
      have isLine : number < (Source.ofBytes bytes).lineCount := by
        rw [Source.lineCount_eq]
        exact inText
      obtain ⟨length, laterLines, earlierSplit⟩ := joinFree.textLines_reindent_split style 0 found
      obtain ⟨below, split⟩ := joinFree.exists_textLines_reindentAll style found
      have passed := joinFree.passedLines_succ style (Nat.zero_le number) found
      generalize (textLines bytes)[number] = line at *
      generalize passedLines style bytes 0 number = above at *
      have isStart := Source.lineStartOf?_of_textLines_eq earlierSplit
      rw [length] at isStart
      rw [← Source.bytes_ofBytes (reindentAll style bytes)] at split
      have ended := endsWithBreak_textOf split
      have text := Source.bytes_eq_of_textLines_eq split
      have earlierText := Source.bytes_eq_of_textLines_eq earlierSplit
      -- The line is not inside a string or a comment, neither now nor when the run came to it.
      have notInside : (Source.ofBytes (reindent style bytes 0 number)).insideLiteral
          (textOf above).length = false := by
        rw [Source.insideLiteral_above earlierText ended, ← Source.insideLiteral_above text ended]
        exact outside _ (List.mem_of_getElem? (Source.lineStartOf?_of_textLines_eq split))
      have newLine : (Source.ofBytes (reindent style bytes 0 number)).newLine style
          (textOf above).length line = line.indented
            ((Source.ofBytes (reindent style bytes 0 number)).lineColumn style
              (textOf above).length) := by
        simp [Source.newLine, notInside]
      rw [newLine] at split passed
      rw [passed, textOf_append, List.length_append, textOf_cons, textOf_nil, List.append_nil]
      apply reflects.extend split
      intro notBlank opening around
      have inWord := sumsFit number isLine _ isStart ⟨isStart, notInside,
        fun isBlank => notBlank ((Source.blank_start_iff earlierSplit).mp isBlank)⟩
      rw [Source.lineColumn_start earlierSplit, if_neg notBlank,
        (Source.isWordOf_indentation _ style _).fits inWord]
      exact reflects.columnSum_lt_indentationSum_of_same_above text earlierText ended around

end Run

end SchemeLayout
