import SchemeLayout.Proofs.Characters
import SchemeLayout.Proofs.TextAbove

/-!
The indentation of a line depends on the text above it only.

The layout reads the head of the list around a line forward, and the head may
reach over to the line: a prefix mark finds its form there, or a string or a bar
section goes on.  Such a head is the only form of its list above the line, and
the line is aligned with its start.  For this, no symbol of the table may
contain a line break.
-/

set_option autoImplicit false

namespace SchemeLayout

/-! ## Symbols that contain a line break -/

theorem exists_char_of_mem_encode {text : String} {byte : UInt8} (ascii : byte.toNat < 128)
    (member : byte ∈ encode text) : ∃ char ∈ text.toList, char.val.toNat = byte.toNat := by
  rw [encode_eq_utf8Bytes] at member
  obtain ⟨char, inText, inChar⟩ := List.mem_flatMap.mp member
  exact ⟨char, inText, toNat_val_of_mem_utf8EncodeChar ascii inChar⟩

theorem mem_toList_of_mem_encode {text : String} {byte : UInt8}
    (isBreak : byte = lineFeed ∨ byte = carriageReturn) (member : byte ∈ encode text) :
    '\n' ∈ text.toList ∨ '\r' ∈ text.toList := by
  have ascii : byte.toNat < 128 := by rcases isBreak with rfl | rfl <;> decide
  obtain ⟨char, inText, same⟩ := exists_char_of_mem_encode ascii member
  rcases isBreak with rfl | rfl
  · have isChar : char = '\n' := Char.ext (UInt32.toNat_inj.mp same)
    exact .inl (isChar ▸ inText)
  · have isChar : char = '\r' := Char.ext (UInt32.toNat_inj.mp same)
    exact .inr (isChar ▸ inText)

/-- No symbol of the table contains a line break. -/
def PolicyTable.BreakFree (table : PolicyTable) : Prop :=
  ∀ symbol ∈ table.symbols, '\n' ∉ symbol.toList ∧ '\r' ∉ symbol.toList

instance (table : PolicyTable) : Decidable table.BreakFree :=
  inferInstanceAs (Decidable (∀ symbol ∈ table.symbols, '\n' ∉ symbol.toList ∧ '\r' ∉ symbol.toList))

/-- A symbol with a line break has the standard policy. -/
theorem PolicyTable.BreakFree.policyFor_eq {table : PolicyTable} (breakFree : table.BreakFree)
    {symbol : String} {byte : UInt8} (isBreak : byte = lineFeed ∨ byte = carriageReturn)
    (member : byte ∈ encode symbol) : table.policyFor symbol = .standard := by
  have absent : symbol ∉ table.symbols := by
    intro inTable
    obtain ⟨noFeed, noReturn⟩ := breakFree symbol inTable
    exact (mem_toList_of_mem_encode isBreak member).elim noFeed noReturn
  rw [policyFor, find?_eq_none_of_not_mem absent, Option.getD_none]

theorem Source.encode_slice_of_symbol {source : Source} {form : Form}
    (isSymbol : (source.spanOf form).kind = .symbol) :
    form.shape = .atom ∧ form.start = form.body ∧
      encode (source.slice form.start form.stop) = source.range form.start form.stop := by
  cases shape : form.shape with
  | list | string | danglingPrefix => simp [spanOf, shape] at isSymbol
  | atom =>
      simp only [spanOf, shape] at isSymbol
      split at isSymbol
      next unmarked =>
        refine ⟨rfl, unmarked, ?_⟩
        rw [unmarked]
        cases decoded : decode? (source.range form.body form.stop) with
        | none => simp [slice, decode, decoded, atomKind] at isSymbol
        | some text => rw [slice, decode, decoded, Option.getD_some, encode_of_decode? decoded]
      next => contradiction

/-! ## Heads that reach over a line start -/

theorem Datum.extend {shape : Shape} {body later : List ByteClass} (datum : Datum shape body)
    (goesOn : joined body.getLast? later.head? = true) :
    ∃ run after, later = run ++ after ∧ Datum shape (body ++ run) ∧
      joined (body ++ run).getLast? after.head? = false := by
  have sameClass {cls : ByteClass} {run : List ByteClass}
      (inRun : ∀ other ∈ run, (other == cls) = true) :
      run = List.replicate run.length cls :=
    List.eq_replicate_of_mem fun other member => eq_of_beq (inRun other member)
  rcases (datum.joined_getLast? later.head?).mp goesOn with ⟨rfl, _⟩ | ⟨rfl, _⟩
  · obtain ⟨run, after, rfl, inRun, stop⟩ := exists_run (· == .stringRest) later
    have longer : Datum .string (body ++ run) := by
      cases datum with
      | @string first count firstIs =>
          rw [sameClass inRun, List.cons_append, List.replicate_append_replicate]
          exact .string firstIs
    refine ⟨run, after, rfl, longer, ?_⟩
    rw [Bool.eq_false_iff, ne_eq, longer.joined_getLast?]
    rintro (⟨_, isNext⟩ | ⟨isAtom, _⟩)
    · exact absurd (stop _ isNext) (by decide)
    · contradiction
  · obtain ⟨run, after, rfl, inRun, stop⟩ := exists_run (· == .atom) later
    have longer : Datum .atom (body ++ run) := by
      cases datum with
      | @atom count =>
          rw [sameClass inRun, List.replicate_append_replicate, Nat.add_right_comm]
          exact .atom
    refine ⟨run, after, rfl, longer, ?_⟩
    rw [Bool.eq_false_iff, ne_eq, longer.joined_getLast?]
    rintro (⟨isString, _⟩ | ⟨_, isNext⟩)
    · contradiction
    · exact absurd (stop _ isNext) (by decide)

/-- Prefix marks that wait for their form find one of their own, or stay. -/
theorem readsForward_of_marks {gap marks : List ByteClass} (trivia : AllTrivia gap)
    (isMarks : LeadMarks marks) (notEmpty : marks ≠ []) (later : List ByteClass) :
    ∃ reading, ReadsForward (gap ++ (marks ++ later)) reading ∧ reading.gap = gap.length ∧
      (reading.lead = 0 → reading.shape ≠ .atom) := by
  obtain ⟨run, inner, rfl, inRun, stop⟩ := exists_run ByteClass.isLead later
  have leads : LeadMarks (marks ++ run) := by
    refine ⟨?_, ?_⟩
    · intro cls member
      exact (List.mem_append.mp member).elim (isMarks.isLead cls) (inRun cls)
    · obtain ⟨first, rest, rfl⟩ := List.exists_cons_of_ne_nil notEmpty
      exact isMarks.first
  have length : (marks ++ run).length ≠ 0 := by simp [notEmpty]
  have read := readForward_append trivia leads stop
  rw [List.append_assoc] at read
  split at read
  · rw [if_neg length] at read
    exact ⟨_, readForward_eq_some_iff.mp read, rfl, fun _ => by simp⟩
  · rw [if_neg length] at read
    exact ⟨_, readForward_eq_some_iff.mp read, rfl, fun _ => by simp⟩
  · exact ⟨_, readForward_eq_some_iff.mp read, rfl, fun none => absurd none length⟩

/-- When more classes follow, the first form of balanced classes stays as it is, or it
is their only form and reaches over their end.  A bare atom does so only where an
atom goes on. -/
theorem ReadsForward.append_or_reaches {rest : List ByteClass} {reading : Reading}
    (reads : ReadsForward rest reading) (balanced : Balanced rest) (later : List ByteClass) :
    ReadsForward (rest ++ later) reading ∨
      AllTrivia (rest.drop reading.size) ∧
      (reading.lead = 0 → reading.shape = .atom →
        reading.size = rest.length ∧ later.head? = some .atom) ∧
      ∃ longer, ReadsForward (rest ++ later) longer ∧ longer.gap = reading.gap ∧
        (longer.lead = 0 → longer.shape = .atom →
          rest.length ≤ longer.size ∧ later.head? = some .atom) := by
  have closed := reads.closed_of_balanced balanced
  cases reads with
  | @datum gap lead body after shape trivia marks datum apart =>
      simp only [List.append_assoc]
      cases after with
      | cons cls after => exact .inl (.datum trivia marks datum apart)
      | nil =>
          cases goesOn : joined body.getLast? later.head? with
          | false => exact .inl (.datum trivia marks datum goesOn)
          | true =>
              have atomGoesOn (isAtom : shape = .atom) : later.head? = some .atom := by
                rcases (datum.joined_getLast? later.head?).mp goesOn with ⟨isString, _⟩ | ⟨_, next⟩
                · rw [isAtom] at isString
                  contradiction
                · exact next
              obtain ⟨run, after, rfl, longer, longerApart⟩ := datum.extend goesOn
              refine .inr ⟨?_, fun _ isAtom => ⟨?_, atomGoesOn isAtom⟩,
                ⟨gap.length, lead.length, (body ++ run).length, shape⟩, ?_, rfl,
                fun _ isAtom => ⟨?_, atomGoesOn isAtom⟩⟩
              · rw [Reading.size, drop_parts]
                exact allTrivia_nil
              · simp [Reading.size, Nat.add_assoc]
              · rw [List.nil_append, ← List.append_assoc body]
                exact .datum trivia marks longer longerApart
              · simp only [Reading.size, List.length_append, List.length_nil]
                omega
  | @unclosed gap lead inner trivia marks unclosed =>
      refine absurd ?_ (closed rfl)
      rw [← List.append_assoc, ← List.drop_drop, List.drop_left' (by simp)]
      exact unclosed
  | @dangling gap marks after trivia isMarks last atEnd =>
      have notEmpty : marks ≠ [] := by
        rintro rfl
        contradiction
      have lead : Balanced (gap ++ marks) :=
        (Balanced.of_isLead trivia.isLead).append (Balanced.of_isLead isMarks.isLead)
      rw [← List.append_assoc] at balanced
      have blank := atEnd.allTrivia (balanced.of_append lead)
      obtain ⟨longer, reads, sameGap, notAtom⟩ :=
        readsForward_of_marks trivia isMarks notEmpty (after ++ later)
      refine .inr ⟨?_, fun _ isAtom => by contradiction, longer, ?_, sameGap,
        fun unmarked isAtom => absurd isAtom (notAtom unmarked)⟩
      · have left := drop_parts gap [] marks after
        exact left.symm ▸ blank
      · simpa using reads

namespace Source

variable {source : Source} {above below : Bytes}

section Above

variable (split : source.bytes = above ++ below)

include split

theorem slice_above (start : Nat) {stop : Nat} (within : stop ≤ above.length) :
    source.slice start stop = (ofBytes above).slice start stop := by
  rw [slice, slice, range_above split start within]

theorem spanOf_above {form : Form} (within : form.stop ≤ above.length) :
    source.spanOf form = (ofBytes above).spanOf form := by
  simp only [spanOf, slice_above split _ within]

theorem treeColumn_above (style : Style) {opening : Nat} {children : List Form}
    (isAbove : opening < above.length)
    (bounds : ∀ child ∈ children, child.start < child.stop ∧ child.stop ≤ above.length) :
    source.treeColumn style opening children =
      (ofBytes above).treeColumn style opening children := by
  have column {form : Form} (member : form ∈ children) :
      source.columnSum style.config.tabWidth form.start =
        (ofBytes above).columnSum style.config.tabWidth form.start :=
    columnSum_above split _ (by have := bounds form member; omega)
  cases children with
  | nil => simp only [treeColumn, columnSum_above split _ isAbove]
  | cons head arguments =>
      have headBounds := bounds head (by simp)
      have lastMember : arguments.getLastD head ∈ head :: arguments := List.getLastD_mem_cons
      have lastBounds := bounds _ lastMember
      have onLine (bound : Nat) : (arguments.find? fun form => bound < form.start).getD
          (arguments.getLastD head) ∈ head :: arguments := by
        cases found : arguments.find? fun form => bound < form.start with
        | none => exact lastMember
        | some form => exact List.mem_cons_of_mem _ (List.mem_of_find?_eq_some found)
      simp only [treeColumn, spanOf_above split headBounds.2, slice_above split _ headBounds.2,
        columnSum_above split _ isAbove, column lastMember, column List.mem_cons_self,
        lineStart_above split (show (arguments.getLastD head).start < above.length by omega),
        column (onLine _)]

/-- A symbol that reaches over the end of the text above has the standard policy. -/
theorem policyFor_of_reaches (ended : EndsWithBreak above) {table : PolicyTable}
    (breakFree : table.BreakFree) {form : Form} (isSymbol : (source.spanOf form).kind = .symbol)
    (starts : form.start < above.length) (reaches : above.length ≤ form.stop) :
    table.policyFor (source.slice form.start form.stop) = .standard := by
  obtain ⟨front, byte, rfl⟩ : ∃ front byte, above = front ++ [byte] := by
    rcases List.eq_nil_or_concat above with rfl | ⟨front, byte, rfl⟩
    · contradiction
    · exact ⟨front, byte, List.concat_eq_append⟩
  have isBreak := ended byte (by simp)
  refine breakFree.policyFor_eq isBreak ?_
  rw [(encode_slice_of_symbol isSymbol).2.2, range, split]
  rw [List.length_append, List.length_singleton] at starts reaches
  refine List.mem_of_getElem? (i := front.length - form.start) ?_
  rw [List.getElem?_take_of_lt (by omega), List.getElem?_drop,
    show form.start + (front.length - form.start) = front.length by omega]
  simp

end Above

/-- A line behind the only form of a list is aligned with it, unless a policy of its
own says otherwise. -/
theorem alignment?_of_only_child {table : PolicyTable} {offset opening : Nat} {last head : Form}
    (enumerated : formsBefore source.classes offset = [last])
    (around : openBackward source.classes last.start 0 = some opening)
    (isHead : formForward source.classes (opening + 1) = some head)
    (sameStart : head.start = last.start)
    (plain : (source.spanOf head).kind = .symbol →
      table.policyFor (source.slice head.start head.stop) = .standard) :
    source.alignment? table offset = some ⟨last.start, 0⟩ := by
  obtain ⟨isLast, nothingBefore⟩ := formBackward_of_formsBefore enumerated
  simp only [alignment?, anchor_of_children isLast around isHead]
  cases kind : (source.spanOf head).kind with
  | list => simp only [sameStart]
  | string => rfl
  | atom => rfl
  | symbol =>
      simp [policyAlignment, Policy.fixedOffset?, plain kind, leftmostOnLine, walkLeft_eq,
        nothingBefore]

end Source

theorem formForward_of_readsForward {classes : List ByteClass} {pos : Nat} {reading : Reading}
    (within : pos ≤ classes.length) (reads : ReadsForward (classes.drop pos) reading) :
    formForward classes pos = some (reading.formAfter pos) := by
  rw [formForward, readForward_eq_some_iff.mpr reads, Nat.min_eq_left within, Option.map_some]

namespace Source

variable {source : Source} {above below : Bytes}

theorem length_of_list {front inner : List ByteClass}
    (classes : classify above = front ++ .opening :: inner) :
    front.length + 1 + inner.length = above.length := by
  have length := congrArg List.length classes
  rw [length_classify, List.length_append, List.length_cons] at length
  omega

/-- A symbol at the head of a list that goes on behind the text above has no policy of
its own, with what follows the text or without it. -/
def PlainAcross (style : Style) (source : Source) (above : Bytes) : Prop :=
  source.classes[above.length]? = some .atom →
    ∀ whole, whole = source ∨ whole = ofBytes above →
    ∀ {opening : Nat} {head : Form}, whole.classes[opening]? = some .opening →
      formForward whole.classes (opening + 1) = some head →
      (whole.spanOf head).kind = .symbol → head.start < above.length → above.length ≤ head.stop →
      style.table.policyFor (whole.slice head.start head.stop) = .standard

/-- Behind a line break such a symbol contains the break. -/
theorem plainAcross_of_breakFree {style : Style} (breakFree : style.table.BreakFree)
    (split : source.bytes = above ++ below) (ended : EndsWithBreak above) :
    PlainAcross style source above := by
  intro _ whole which opening head _ _ isSymbol starts reaches
  rcases which with rfl | rfl
  · exact policyFor_of_reaches split ended breakFree isSymbol starts reaches
  · exact policyFor_of_reaches (List.append_nil above).symm ended breakFree isSymbol starts reaches

section List

variable {front inner : List ByteClass} (split : source.bytes = above ++ below)
  (agree : source.classes.take above.length = classify above)
  (classes : classify above = front ++ .opening :: inner) (balanced : Balanced inner)

section

include agree classes

theorem drop_classes_of_list :
    source.classes.drop (front.length + 1) = inner ++ source.classes.drop above.length := by
  rw [← List.drop_drop, drop_of_take_eq (agree.trans classes)]
  rfl

theorem isOpening_of_list : source.classes[front.length]? = some .opening := by
  have read := congrArg (·[front.length]?) (agree.trans classes)
  have size := length_of_list classes
  simpa [List.getElem?_take, show front.length < above.length by omega] using read

end

include split agree classes balanced

/-- A line behind complete forms of a list is indented by the forms above it. -/
theorem indentationSum_above_of_head (style : Style)
    (isHead : ∀ head ∈ (formsAhead (front.length + 1) inner).head?,
      formForward source.classes (front.length + 1) = some head) :
    source.indentationSum style above.length =
      (ofBytes above).treeColumn style front.length (formsAhead (front.length + 1) inner) := by
  have cut := agree.trans classes
  have size := length_of_list classes
  have around := openBackward_eq_some_iff.mpr ⟨front, inner, cut, balanced, rfl⟩
  rw [indentationSum_of_list style around (formsBefore_eq_reverse_of_list cut balanced)
    (pairwise_start_formsAhead _ _) isHead
    (fun child member => openBackward_start cut balanced member)]
  refine treeColumn_above split style (by omega) ?_
  intro child member
  have bounds := formsAhead_bounds member
  omega

/-- A line that the only form of a list reaches over to is aligned with that form. -/
theorem indentationSum_above_of_reaching {style : Style} {last head : Form}
    (only : formsAhead (front.length + 1) inner = [last])
    (isHead : formForward source.classes (front.length + 1) = some head)
    (sameStart : head.start = last.start)
    (plain : head.start < above.length → (source.spanOf head).kind = .symbol →
      style.table.policyFor (source.slice head.start head.stop) = .standard) :
    source.indentationSum style above.length =
      (ofBytes above).columnSum style.config.tabWidth last.start := by
  have cut := agree.trans classes
  have size := length_of_list classes
  have member : last ∈ formsAhead (front.length + 1) inner := by simp [only]
  have bounds := formsAhead_bounds member
  have children := formsBefore_eq_reverse_of_list cut balanced
  rw [only, List.reverse_singleton] at children
  rw [indentationSum, alignment?_of_only_child children (openBackward_start cut balanced member)
    isHead sameStart (plain (by omega)), ← columnSum_above split _ (by omega)]
  rfl

end List

theorem take_classes_alone (above : Bytes) :
    (ofBytes above).classes.take above.length = classify above := by
  rw [classes_ofBytes, List.take_of_length_le (by simp)]

theorem indentationSum_above_of_list {style : Style} (split : source.bytes = above ++ below)
    (agree : source.classes.take above.length = classify above)
    (plain : PlainAcross style source above) {front inner : List ByteClass}
    (classes : classify above = front ++ .opening :: inner) (balanced : Balanced inner) :
    source.indentationSum style above.length =
      (ofBytes above).indentationSum style above.length := by
  have alone : (ofBytes above).bytes = above ++ [] := (List.append_nil above).symm
  have agreeAlone := take_classes_alone above
  have size := length_of_list classes
  have isShort := drop_classes_of_list agreeAlone classes
  have isLong := drop_classes_of_list agree classes
  have longer := length_above_le split
  rw [← source.length_classes] at longer
  have nothingLater : (ofBytes above).classes.drop above.length = [] :=
    List.drop_of_length_le (by simp)
  rw [nothingLater, List.append_nil] at isShort
  cases found : readForward inner with
  | none =>
      have nothing := formsAhead_of_none (front.length + 1) found
      rw [indentationSum_above_of_head split agree classes balanced style (by simp [nothing]),
        indentationSum_above_of_head alone agreeAlone classes balanced style (by simp [nothing])]
  | some reading =>
      have forms := formsAhead_of_some (front.length + 1) found
      have reads := readForward_eq_some_iff.mp found
      have shortHead := formForward_of_readsForward (by simp; omega) (isShort.symm ▸ reads)
      rcases reads.append_or_reaches balanced (source.classes.drop above.length) with
        same | ⟨blank, reachesEnd, later, laterReads, sameGap, reachesOver⟩
      · have longHead := formForward_of_readsForward (by omega) (isLong.symm ▸ same)
        rw [indentationSum_above_of_head split agree classes balanced style,
          indentationSum_above_of_head alone agreeAlone classes balanced style]
        · rw [forms]
          rintro head ⟨⟩
          exact shortHead
        · rw [forms]
          rintro head ⟨⟩
          exact longHead
      · have longHead := formForward_of_readsForward (by omega) (isLong.symm ▸ laterReads)
        have nothing : readForward (inner.drop reading.size) = none := by
          rw [readForward_eq_none_iff, ← List.append_nil (inner.drop reading.size)]
          exact AtListEnd.trivia_append blank .nil
        rw [formsAhead_of_none _ nothing] at forms
        rw [indentationSum_above_of_reaching split agree classes balanced forms longHead,
          indentationSum_above_of_reaching alone agreeAlone classes balanced forms shortHead rfl]
        · intro starts isSymbol
          obtain ⟨isAtom, unmarked, _⟩ := encode_slice_of_symbol isSymbol
          have reaches := reachesEnd (by simp [Reading.formAfter] at unmarked; omega) isAtom
          rw [List.head?_drop] at reaches
          refine plain reaches.2 _ (.inr rfl) (isOpening_of_list agreeAlone classes) shortHead
            isSymbol starts ?_
          rw [Reading.stop_formAfter]
          omega
        · simp only [Reading.formAfter, sameGap]
        · intro starts isSymbol
          obtain ⟨isAtom, unmarked, _⟩ := encode_slice_of_symbol isSymbol
          have reaches := reachesOver (by simp [Reading.formAfter] at unmarked; omega) isAtom
          rw [List.head?_drop] at reaches
          refine plain reaches.2 _ (.inl rfl) (isOpening_of_list agree classes) longHead
            isSymbol starts ?_
          rw [Reading.stop_formAfter]
          omega

/-- An offset at which the text in front keeps its classes is indented as if nothing
came after it, unless a symbol with a policy of its own reaches over it. -/
theorem indentation_of_agree {style : Style} (split : source.bytes = above ++ below)
    (agree : source.classes.take above.length = classify above)
    (plain : PlainAcross style source above) :
    source.indentation style above.length = (ofBytes above).indentation style above.length := by
  have length : (ofBytes above).classes.length = above.length := length_classes _
  have short : source.classes.take (ofBytes above).classes.length = (ofBytes above).classes := by
    rw [length]
    exact agree
  have sameForm := formBackward_of_take_eq short (Nat.le_of_eq length.symm)
  have sameList := openBackward_of_take_eq short (Nat.le_of_eq length.symm)
  apply indentation_congr
  cases around : openBackward (ofBytes above).classes above.length 0 with
  | some opening =>
      obtain ⟨front, inner, classes, balanced, _⟩ := openBackward_eq_some_iff.mp around
      rw [take_classes_alone] at classes
      exact indentationSum_above_of_list split agree plain classes balanced
  | none =>
      rw [around] at sameList
      cases isLast : formBackward (ofBytes above).classes above.length with
      | none =>
          rw [isLast] at sameForm
          rw [indentationSum, indentationSum, alignment?_of_nothing _ sameForm,
            alignment?_of_nothing _ isLast, sameList, around]
          rfl
      | some last =>
          rw [isLast] at sameForm
          have bounds := formBackward_bounds isLast
          rw [indentationSum, indentationSum,
            alignment?_of_outside _ sameForm ((openBackward_formBackward sameForm).trans sameList),
            alignment?_of_outside _ isLast ((openBackward_formBackward isLast).trans around)]
          simp only [columnSum_above split _ (show last.start < above.length by omega)]

/-- A line is indented as if nothing came after the text above it. -/
theorem indentation_above {style : Style} (breakFree : style.table.BreakFree)
    (split : source.bytes = above ++ below) (ended : EndsWithBreak above) :
    source.indentation style above.length = (ofBytes above).indentation style above.length := by
  have agree := take_classes_above split ended
  rw [length_classes, length_ofBytes] at agree
  exact indentation_of_agree split agree (plainAcross_of_breakFree breakFree split ended)

end Source

/-- Two texts that agree up to the start of a line give the line the same column,
whatever stands on it and below it. -/
theorem indentation_eq_of_take_eq {style : Style} (breakFree : style.table.BreakFree)
    {text other : Bytes} {offset : Nat} (within : offset ≤ text.length)
    (agree : text.take offset = other.take offset) (ended : EndsWithBreak (text.take offset)) :
    (Source.ofBytes text).indentation style offset =
      (Source.ofBytes other).indentation style offset := by
  have split : (Source.ofBytes text).bytes = text.take offset ++ text.drop offset :=
    (List.take_append_drop offset text).symm
  have otherSplit : (Source.ofBytes other).bytes = text.take offset ++ other.drop offset := by
    rw [agree]
    exact (List.take_append_drop offset other).symm
  have column := Source.indentation_above breakFree split ended
  have otherColumn := Source.indentation_above breakFree otherSplit ended
  rw [List.length_take, Nat.min_eq_left within] at column otherColumn
  rw [column, otherColumn]

/-- A quote at the end of a line finds a list below it in one text and a symbol in the
other.  The lines are anchored differently, in the same column. -/
theorem indentation_behind_quote :
    (Source.ofString "('\n(a))").anchor 3 = .listHead 1 ∧
      (Source.ofString "('\nb)").anchor 3 = .leafHead 1 ∧
      (Source.ofString "('\n(a))").indentation {} 3 =
        (Source.ofString "('\nb)").indentation {} 3 := by
  refine ⟨by decide +kernel, by decide +kernel, ?_⟩
  refine indentation_eq_of_take_eq (by decide +kernel) (by decide +kernel) (by decide +kernel) ?_
  intro byte isLast
  left
  revert byte
  decide +kernel

end SchemeLayout
