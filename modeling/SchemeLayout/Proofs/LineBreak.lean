import SchemeLayout.Editor.TextEdit
import SchemeLayout.Proofs.LineLayout
import SchemeLayout.Proofs.NavigatorSpans
import SchemeLayout.Proofs.WhiteSpace

/-!
A typed line break leaves its new line indented.

The column of the new line is computed on the text as it stands before the edit.
Behind the edit the layout gives the line the same column: the break is white
space, and what follows an offset matters only to a symbol that reaches over it.
Outside the atoms of a text no symbol does.  The break becomes part of an atom
only inside bars, or as the character of a literal, and a literal is no symbol.
-/

set_option autoImplicit false

namespace SchemeLayout

/-- The position lies inside an atom. -/
def InsideAtom (classes : List ByteClass) (pos : Nat) : Prop :=
  (classes.take pos).getLast? = some .atom ∧ classes[pos]? = some .atom

instance (classes : List ByteClass) (pos : Nat) : Decidable (InsideAtom classes pos) :=
  inferInstanceAs (Decidable (_ ∧ _))

theorem InsideAtom.cutsRun {classes : List ByteClass} {pos : Nat}
    (inside : InsideAtom classes pos) : CutsRun classes pos := by
  left
  rw [cutsToken, inside.1, List.head?_drop, inside.2]
  rfl

/-! ## Symbols that reach over an offset -/

/-- A bare atom is one run of atom bytes. -/
theorem eq_atom_of_bareAtom {classes : List ByteClass} {pos : Nat} {form : Form}
    (found : formForward classes pos = some form) (isAtom : form.shape = .atom)
    (unmarked : form.start = form.body) :
    ∀ cls ∈ (classes.take form.stop).drop form.start, cls = .atom := by
  obtain ⟨reading, reads, rfl⟩ := exists_readsForward found
  generalize isRest : classes.drop pos = rest at reads
  cases reads with
  | @datum gap lead body after shape trivia marks datum apart =>
      cases isAtom
      have noMarks : lead = [] := List.length_eq_zero_iff.mp (by
        simp only [Reading.formAfter] at unmarked
        omega)
      subst noMarks
      have isBody : (classes.take (pos + (gap.length + body.length))).drop (pos + gap.length) =
          body := by
        rw [List.drop_take, ← List.drop_drop, isRest, List.drop_left, List.nil_append,
          List.take_left' (by omega)]
      cases datum with
      | atom =>
          intro cls member
          rw [Reading.stop_formAfter] at member
          simp only [Reading.formAfter, Reading.size, List.length_nil, Nat.add_zero] at member
          rw [isBody] at member
          exact List.eq_of_mem_replicate member
  | unclosed => contradiction
  | dangling => contradiction

namespace Source

variable {source : Source} {above below : Bytes}

/-- A symbol at the head of a list that reaches over an offset covers the atom in front of
the offset. -/
theorem atoms_of_reaching_symbol (agree : source.classes.take above.length = classify above)
    {opening : Nat} {head : Form} (isOpening : source.classes[opening]? = some .opening)
    (isHead : formForward source.classes (opening + 1) = some head)
    (isSymbol : (source.spanOf head).kind = .symbol) (starts : head.start < above.length)
    (reaches : above.length ≤ head.stop) :
    ((classify above).take head.start).getLast? ≠ some .atom ∧
      ∀ cls ∈ (classify above).drop head.start, cls = .atom := by
  obtain ⟨isAtom, unmarked, _⟩ := encode_slice_of_symbol isSymbol
  have allAtoms : ∀ cls ∈ (classify above).drop head.start, cls = .atom := by
    intro cls member
    rw [← agree, ← Nat.min_eq_left reaches, ← List.take_take, List.drop_take] at member
    exact eq_atom_of_bareAtom isHead isAtom unmarked cls (List.mem_of_mem_take member)
  refine ⟨?_, allAtoms⟩
  intro isLast
  have cut : CutsRun source.classes head.start := by
    refine InsideAtom.cutsRun ⟨?_, ?_⟩
    · rw [← agree, List.take_take, Nat.min_eq_left (by omega)] at isLast
      exact isLast
    · have within : head.start < (classify above).length := by rwa [length_classify]
      have first := allAtoms _ (List.mem_of_getElem? (i := 0) (by
        rw [List.getElem?_drop, Nat.add_zero, List.getElem?_eq_getElem within]))
      rw [← List.getElem?_take_of_lt starts, agree, List.getElem?_eq_getElem within, first]
  rcases not_cutsRun_start_forward isHead with atOpening | uncut
  · rw [atOpening] at cut
    exact (not_cutsRun_of_bracket (.inl rfl) isOpening).2 cut
  · exact uncut cut

end Source

/-! ## Character literals -/

namespace LexState

theorem step_from_atom {state : LexState} (inside : state = atom ∨ state = atomBar)
    {role : ByteRole} {next : Option ByteRole} (isAtom : (state.step role next).1 = .atom) :
    (state.step role next).2 = atom ∨ (state.step role next).2 = atomBar := by
  rcases inside with rfl | rfl <;> cases role <;>
    simp_all [step, stepAtom, stepBetween, ByteRole.endsAtom]

theorem step_to_atom {state : LexState} (outside : state.inAtom = false) {role : ByteRole}
    (notHash : role ≠ .hash) {next : Option ByteRole} (isAtom : (state.step role next).1 = .atom) :
    (state.step role next).2 = atom ∨ (state.step role next).2 = atomBar := by
  cases state <;> cases role <;> simp_all [step, stepBetween, inAtom]

/-- An atom that has gone on behind its first byte names no character any more. -/
theorem run_ne_charLiteral {state : LexState} (inside : state = atom ∨ state = atomBar)
    {roles : List ByteRole} (allAtom : ∀ cls ∈ classifyFrom state roles, cls = .atom) :
    state.run roles ≠ charLiteral := by
  induction roles generalizing state with
  | nil => rcases inside with rfl | rfl <;> simp [run]
  | cons role rest inductionHypothesis =>
      rw [classifyFrom, List.forall_mem_cons] at allAtom
      exact inductionHypothesis (step_from_atom inside allAtom.1) allAtom.2

/-- Only an atom that starts with a hash names a character. -/
theorem head?_of_run_charLiteral {state : LexState} (outside : state.inAtom = false)
    {roles : List ByteRole} (allAtom : ∀ cls ∈ classifyFrom state roles, cls = .atom)
    (reached : state.run roles = charLiteral) : roles.head? = some .hash := by
  cases roles with
  | nil =>
      rw [run] at reached
      rw [reached] at outside
      contradiction
  | cons role rest =>
      rw [classifyFrom, List.forall_mem_cons] at allAtom
      by_cases isHash : role = .hash
      · rw [isHash, List.head?_cons]
      · exact absurd reached (run_ne_charLiteral (step_to_atom outside isHash allAtom.1) allAtom.2)

/-- A line break that starts as part of an atom and does not end as one completes a
character literal. -/
theorem eq_charLiteral_of_break {state : LexState} {delimiter : String}
    (isDelimiter : delimiter ∈ lineDelimiters) {later : List ByteRole} {classes : List ByteClass}
    (isClasses : classifyFrom state ((encode delimiter).map .of ++ later) = classes)
    (isFirst : classes[0]? = some .atom)
    (notLast : classes[(encode delimiter).length - 1]? ≠ some .atom) : state = charLiteral := by
  simp only [lineDelimiters, List.mem_cons, List.not_mem_nil, or_false] at isDelimiter
  rcases isDelimiter with rfl | rfl | rfl
  · rw [show (encode "\r\n").map ByteRole.of = [.lineBreak, .lineBreak] by decide] at isClasses
    rw [show (encode "\r\n").length - 1 = 1 by decide] at notLast
    subst isClasses
    cases state <;> simp_all [classifyFrom, step, stepBetween, stepAtom, ByteRole.endsAtom]
  · exact absurd isFirst notLast
  · exact absurd isFirst notLast

end LexState

/-- An atom in front of the character that a literal names starts with a hash. -/
theorem head?_of_charLiteral {above : Bytes} {start : Nat}
    (reached : stateBehind above = .charLiteral) (within : start ≤ above.length)
    (apart : ((classify above).take start).getLast? ≠ some .atom)
    (allAtoms : ∀ cls ∈ (classify above).drop start, cls = .atom) :
    ∃ byte, (above.drop start).head? = some byte ∧ ByteRole.of byte = .hash := by
  obtain ⟨passed, state, length, classes, behind, ends⟩ :=
    exists_classifyFrom_append .between ((above.take start).map .of) ((above.drop start).map .of)
  rw [← List.map_append, List.take_append_drop] at classes behind
  have isClasses : classify above = passed ++ classifyFrom state ((above.drop start).map .of) :=
    classes
  rw [List.length_map, List.length_take, Nat.min_eq_left within] at length
  rw [isClasses, List.take_left' length] at apart
  rw [isClasses, List.drop_left' length] at allAtoms
  have outside : state.inAtom = false := by
    rw [ends, List.getLastD_eq_getLast?, List.getLast?_map]
    cases isLast : passed.getLast? with
    | none => rfl
    | some cls => simpa [isLast] using apart
  have isHash := LexState.head?_of_run_charLiteral outside allAtoms (behind.symm.trans reached)
  rw [List.head?_map, Option.map_eq_some_iff] at isHash
  exact isHash

namespace Source

variable {source : Source} {above below : Bytes}

/-- What starts with a hash is no symbol. -/
theorem kind_ne_symbol_of_hash {form : Form} {byte : UInt8} (starts : form.start < form.stop)
    (isFirst : (source.bytes.drop form.start).head? = some byte)
    (isHash : ByteRole.of byte = .hash) : (source.spanOf form).kind ≠ .symbol := by
  intro isSymbol
  obtain ⟨isAtom, unmarked, isSlice⟩ := encode_slice_of_symbol isSymbol
  have roles := map_of_encode (source.slice form.start form.stop)
  have first := congrArg List.head? roles
  rw [isSlice, head?_rolesOf, range, List.head?_map, List.head?_take, if_neg (by omega), isFirst,
    Option.map_some, isHash, eq_comm, Option.map_eq_some_iff] at first
  obtain ⟨char, isChar, isHash⟩ := first
  rw [(ByteRole.ofChar_eq_iff rfl).mp isHash] at isChar
  simp only [spanOf, isAtom, unmarked, if_pos] at isSymbol
  rw [← unmarked] at isSymbol
  obtain ⟨rest, isText⟩ := List.head?_eq_some_iff.mp isChar
  rw [isText] at isSymbol
  contradiction

/-- Outside the atoms of a text no symbol reaches over an offset. -/
theorem plainAcross_of_outside (style : Style)
    (agree : source.classes.take above.length = classify above)
    (outside : ¬ InsideAtom source.classes above.length) : PlainAcross style source above := by
  intro isAtom whole which opening head isOpening isHead isSymbol starts reaches
  have agreeWhole : whole.classes.take above.length = classify above := by
    rcases which with rfl | rfl
    · exact agree
    · exact take_classes_alone above
  have atoms := (atoms_of_reaching_symbol agreeWhole isOpening isHead isSymbol starts reaches).2
  have isLast : ((classify above).drop head.start).getLast? = (classify above).getLast? := by
    rw [List.getLast?_drop, if_neg (by rw [length_classify]; omega)]
  refine absurd ⟨?_, isAtom⟩ outside
  rw [agree, ← isLast]
  cases last : ((classify above).drop head.start).getLast? with
  | none =>
      rw [List.getLast?_eq_none_iff, List.drop_eq_nil_iff, length_classify] at last
      omega
  | some cls => rw [atoms cls (List.mem_of_getLast? last)]

/-- No symbol reaches over a character literal that names the start of what follows. -/
theorem plainAcross_of_charLiteral (style : Style) (split : source.bytes = above ++ below)
    (agree : source.classes.take above.length = classify above)
    (named : source.classes[above.length]? = some .atom → stateBehind above = .charLiteral) :
    PlainAcross style source above := by
  intro isAtom whole which opening head isOpening isHead isSymbol starts reaches
  have ⟨agreeWhole, rest, splitWhole⟩ : whole.classes.take above.length = classify above ∧
      ∃ rest, whole.bytes = above ++ rest := by
    rcases which with rfl | rfl
    · exact ⟨agree, below, split⟩
    · exact ⟨take_classes_alone above, [], (List.append_nil above).symm⟩
  obtain ⟨apart, atoms⟩ :=
    atoms_of_reaching_symbol agreeWhole isOpening isHead isSymbol starts reaches
  obtain ⟨byte, isFirst, isHash⟩ :=
    head?_of_charLiteral (named isAtom) (Nat.le_of_lt starts) apart atoms
  refine absurd isSymbol (kind_ne_symbol_of_hash (by omega) ?_ isHash)
  rw [splitWhole, List.drop_append_of_le_length (Nat.le_of_lt starts), List.head?_append, isFirst,
    Option.some_or]

/-! ## The edit -/

theorem takeWhile_dropWhile (bytes : Bytes) :
    (bytes.dropWhile isIndentByte).takeWhile isIndentByte = [] := by
  induction bytes with
  | nil => rfl
  | cons byte rest inductionHypothesis =>
      cases isIndent : isIndentByte byte <;> simp [isIndent, inductionHypothesis]

theorem indentRun_of_spaces {front rest : Bytes} {column : Nat}
    (split : source.bytes = front ++ (spaces column ++ rest))
    (stops : rest.takeWhile isIndentByte = []) : source.indentRun front.length = column := by
  rw [indentRun, split, List.drop_left,
    List.takeWhile_append_of_pos fun _ => isIndentByte_of_mem_spaces, stops, List.append_nil,
    length_spaces]

theorem drop_indentRun (source : Source) (offset : Nat) :
    source.bytes.drop (offset + source.indentRun offset) =
      (source.bytes.drop offset).dropWhile isIndentByte := by
  have parts := List.takeWhile_append_dropWhile (p := isIndentByte) (l := source.bytes.drop offset)
  rw [← List.drop_drop, indentRun]
  calc (source.bytes.drop offset).drop _
    _ = (_ ++ (source.bytes.drop offset).dropWhile isIndentByte).drop _ := by rw [parts]
    _ = (source.bytes.drop offset).dropWhile isIndentByte := List.drop_left

end Source

theorem isWhite_of_delimiter {delimiter : String} (isDelimiter : delimiter ∈ lineDelimiters) :
    ∀ byte ∈ encode delimiter, (ByteRole.of byte).isWhite = true := by
  revert delimiter
  decide +kernel

theorem length_encode_delimiter_pos {delimiter : String}
    (isDelimiter : delimiter ∈ lineDelimiters) : 0 < (encode delimiter).length := by
  revert delimiter
  decide

theorem breaksLine_of_delimiter {delimiter : String} (isDelimiter : delimiter ∈ lineDelimiters)
    (offset : Nat) : (TextEdit.mk offset 0 (encode delimiter)).breaksLine = true := by
  simp only [lineDelimiters, List.mem_cons, List.not_mem_nil, or_false] at isDelimiter
  rcases isDelimiter with rfl | rfl | rfl <;> rfl

section Break

variable {style : Style} {text : Bytes} {offset : Nat} {delimiter : String}

/-- The edit for a line break that continues no comment. -/
def lineBreakEdit (style : Style) (text : Bytes) (offset : Nat) (delimiter : String) : TextEdit :=
  { offset := offset
    length := (Source.ofBytes text).indentRun offset
    text := encode delimiter ++ spaces ((Source.ofBytes text).indentation style offset).toNat }

theorem extendLineBreak?_eq (isDelimiter : delimiter ∈ lineDelimiters)
    (noComment : continuesComment style.config ((Source.ofBytes text).lineBytes offset) = false) :
    (Source.ofBytes text).extendLineBreak? style ⟨offset, 0, encode delimiter⟩ =
      some (lineBreakEdit style text offset delimiter) := by
  simp [Source.extendLineBreak?, breaksLine_of_delimiter isDelimiter, noComment, lineBreakEdit]

theorem apply_lineBreakEdit :
    (lineBreakEdit style text offset delimiter).apply text =
      text.take offset ++ (encode delimiter ++
        (spaces ((Source.ofBytes text).indentation style offset).toNat ++
          (text.drop offset).dropWhile isIndentByte)) := by
  have rest := (Source.ofBytes text).drop_indentRun offset
  simp only [Source.bytes_ofBytes] at rest
  simp only [TextEdit.apply, lineBreakEdit, List.append_assoc, rest]

/-- Only the blanks behind the break are removed. -/
theorem isIndentByte_of_mem_removed {byte : UInt8}
    (member : byte ∈ (Source.ofBytes text).range offset
      (offset + (lineBreakEdit style text offset delimiter).length)) :
    isIndentByte byte = true := by
  have isRun : (Source.ofBytes text).range offset
      (offset + (lineBreakEdit style text offset delimiter).length) =
        (text.drop offset).takeWhile isIndentByte := by
    rw [Source.range, Nat.add_sub_cancel_left]
    exact (List.prefix_iff_eq_take.mp (List.takeWhile_prefix isIndentByte)).symm
  rw [isRun] at member
  exact List.all_eq_true.mp List.all_takeWhile byte member

/-- What stands in front of an offset decides on its column, unless the offset lies inside
an atom or behind a hash. -/
theorem indentation_eq_of_outside (within : offset ≤ text.length)
    (notHash : ((text.take offset).map ByteRole.of).getLast? ≠ some .hash)
    (outside : ¬ InsideAtom (classify text) offset) :
    (Source.ofBytes text).indentation style offset =
      (Source.ofBytes (text.take offset)).indentation style offset := by
  have length : (text.take offset).length = offset := by
    rw [List.length_take, Nat.min_eq_left within]
  have split : (Source.ofBytes text).bytes = text.take offset ++ text.drop offset :=
    (List.take_append_drop offset text).symm
  have agree := take_classify_of_ne_hash notHash (text.drop offset)
  rw [List.take_append_drop] at agree
  have plain : Source.PlainAcross style (.ofBytes text) (text.take offset) :=
    Source.plainAcross_of_outside style agree (by rwa [length])
  have same := Source.indentation_of_agree split agree plain
  rwa [length] at same

/-- So does it if a line break is put there that is no part of an atom. -/
theorem indentation_eq_of_break (style : Style) {above later : Bytes}
    (isDelimiter : delimiter ∈ lineDelimiters)
    (notHash : (above.map ByteRole.of).getLast? ≠ some .hash)
    (notAtom : (classify (above ++ (encode delimiter ++ later)))[above.length +
      (encode delimiter).length - 1]? ≠ some .atom) :
    (Source.ofBytes (above ++ (encode delimiter ++ later))).indentation style
        (above.length + (encode delimiter).length) =
      (Source.ofBytes above).indentation style above.length := by
  have classes : classify (above ++ (encode delimiter ++ later)) = classify above ++
      classifyFrom (stateBehind above) ((encode delimiter).map .of ++ later.map .of) := by
    rw [classify, List.map_append, List.map_append, classifyFrom_append _ notHash]
    rfl
  generalize behind : classifyFrom (stateBehind above) _ = fromBreak at classes
  have positive := length_encode_delimiter_pos isDelimiter
  have named (isAtom : (classify (above ++ (encode delimiter ++ later)))[above.length]? =
      some .atom) : stateBehind above = .charLiteral := by
    refine LexState.eq_charLiteral_of_break isDelimiter behind ?_ ?_
    · rwa [classes, List.getElem?_append_right (by simp), length_classify, Nat.sub_self] at isAtom
    · rwa [classes, List.getElem?_append_right (by rw [length_classify]; omega), length_classify,
        Nat.add_sub_assoc positive, Nat.add_sub_cancel_left] at notAtom
  rw [Source.indentation_of_allWhite rfl (isWhite_of_delimiter isDelimiter)]
  have agree := take_classify_of_ne_hash notHash (encode delimiter ++ later)
  exact Source.indentation_of_agree rfl agree
    (Source.plainAcross_of_charLiteral style rfl agree named)

/-- The spaces put in are all the blanks that the new line starts with. -/
theorem indentRun_lineBreakEdit (within : offset ≤ text.length) :
    (Source.ofBytes ((lineBreakEdit style text offset delimiter).apply text)).indentRun
        (offset + (encode delimiter).length) =
      ((Source.ofBytes text).indentation style offset).toNat := by
  have front : offset + (encode delimiter).length =
      (text.take offset ++ encode delimiter).length := by
    rw [List.length_append, List.length_take, Nat.min_eq_left within]
  rw [apply_lineBreakEdit, ← List.append_assoc, front]
  exact Source.indentRun_of_spaces rfl (Source.takeWhile_dropWhile _)

/-- The new line has the column of the offset in the text before the edit. -/
theorem indentation_lineBreakEdit (within : offset ≤ text.length)
    (isDelimiter : delimiter ∈ lineDelimiters)
    (notHash : ((text.take offset).map ByteRole.of).getLast? ≠ some .hash)
    (outside : ¬ InsideAtom (classify text) offset)
    (notAtom : (classify ((lineBreakEdit style text offset delimiter).apply text))[offset +
      (encode delimiter).length - 1]? ≠ some .atom) :
    (Source.ofBytes ((lineBreakEdit style text offset delimiter).apply text)).indentation style
        (offset + (encode delimiter).length) =
      (Source.ofBytes text).indentation style offset := by
  have length : (text.take offset).length = offset := by
    rw [List.length_take, Nat.min_eq_left within]
  rw [apply_lineBreakEdit] at notAtom ⊢
  have broken := indentation_eq_of_break style isDelimiter notHash
    (by rw [length]; exact notAtom)
  rw [length] at broken
  rw [broken, indentation_eq_of_outside within notHash outside]

/-- A line break typed outside the atoms of a text leaves its line indented.  The edit
takes away blanks alone, and the spaces it puts in are all the blanks that the new line
starts with: as many as the layout asks for, before the edit and after it. -/
theorem indentation_of_typed_break (style : Style) (text : Bytes) (offset : Nat)
    (delimiter : String) (within : offset ≤ text.length)
    (isDelimiter : delimiter ∈ lineDelimiters)
    (noComment : continuesComment style.config ((Source.ofBytes text).lineBytes offset) = false)
    (outside : ¬ InsideAtom (classify text) offset)
    (notHash : (text.take offset).getLast? ≠ some 0x23) :
    ∃ edit, (Source.ofBytes text).extendLineBreak? style ⟨offset, 0, encode delimiter⟩ =
        some edit ∧
      let result := Source.ofBytes (edit.apply text)
      let start := offset + (encode delimiter).length
      result.classAt? (start - 1) ≠ some .atom →
        edit.offset = offset ∧
        (∀ byte ∈ (Source.ofBytes text).range offset (offset + edit.length),
          byte = space ∨ byte = tab) ∧
        edit.text = encode delimiter ++ spaces (result.indentRun start) ∧
        result.indentRun start = ((Source.ofBytes text).indentation style offset).toNat ∧
        result.indentRun start = (result.indentation style start).toNat := by
  refine ⟨_, extendLineBreak?_eq isDelimiter noComment, ?_⟩
  intro result start notAtom
  have noHash : ((text.take offset).map ByteRole.of).getLast? ≠ some .hash := by
    rw [List.getLast?_map, ne_eq, Option.map_eq_some_iff]
    rintro ⟨byte, isLast, isHash⟩
    rw [isLast, (ByteRole.of_eq_hash_iff byte).mp isHash] at notHash
    contradiction
  have isRun : result.indentRun start = ((Source.ofBytes text).indentation style offset).toNat :=
    indentRun_lineBreakEdit within
  have isColumn : result.indentation style start =
      (Source.ofBytes text).indentation style offset :=
    indentation_lineBreakEdit within isDelimiter noHash outside notAtom
  refine ⟨rfl, ?_, ?_, isRun, by rw [isRun, isColumn]⟩
  · intro byte member
    simpa [isIndentByte] using isIndentByte_of_mem_removed member
  · rw [isRun]
    rfl

/-- A line break takes the place of blanks. -/
theorem indentation_of_typed_break_at_blanks :
    (Source.ofString "(if a \t b)").extendLineBreak? {} ⟨5, 0, encode "\r\n"⟩ =
        some ⟨5, 3, encode "\r\n    "⟩ ∧
      (Source.ofString "(if a\r\n    b)").indentRun 7 =
        ((Source.ofString "(if a \t b)").indentation {} 5).toNat ∧
      (Source.ofString "(if a\r\n    b)").indentRun 7 =
        ((Source.ofString "(if a\r\n    b)").indentation {} 7).toNat := by
  have isEdit : (Source.ofString "(if a \t b)").extendLineBreak? {} ⟨5, 0, encode "\r\n"⟩ =
      some ⟨5, 3, encode "\r\n    "⟩ := by decide +kernel
  have isResult : (TextEdit.mk 5 3 (encode "\r\n    ")).apply (encode "(if a \t b)") =
      encode "(if a\r\n    b)" := by decide +kernel
  obtain ⟨edit, answers, facts⟩ :=
    indentation_of_typed_break {} (encode "(if a \t b)") 5 "\r\n" (by decide +kernel)
      (by decide +kernel) (by decide +kernel) (by decide +kernel) (by decide +kernel)
  obtain rfl := Option.some.inj (answers.symm.trans isEdit)
  obtain ⟨_, _, _, before, after⟩ := facts (by decide +kernel)
  rw [isResult] at before after
  exact ⟨isEdit, before, after⟩

-- Behind the opening of a character literal, the carriage return is the character.
example : (Source.ofString "(#\\").extendLineBreak? {} ⟨3, 0, encode "\r\n"⟩ =
      some ⟨3, 0, encode "\r\n "⟩ ∧
    (Source.ofString "(#\\\r\n ").classes = [.opening, .atom, .atom, .atom, .space, .space] ∧
    (Source.ofString "(#\\\r\n ").indentation {} 5 = 1 := by
  decide +kernel

end Break

end SchemeLayout
