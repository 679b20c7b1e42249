import SchemeLayout.Proofs.CursorSkips

/-!
The cursor pass follows the token grammar.

From in front of a token the pass moves to its end and gives the token its classes.
The flag that tells where a token may start makes no difference: it is down behind
atoms only, and there no quoting mark follows.  So the pass never fails, comes to
the end of the text, and finds the same classes as the lexer.  As it finds one token
at a time, a text can be split in one way only.
-/

set_option autoImplicit false

namespace SchemeLayout

namespace Cursor

variable {bytes : Bytes} {cursor : Cursor bytes} {rest : List Char}

/-! ## Tokens -/

theorem fill_eq {chars : List Char} {next : Cursor bytes} (cls : ByteClass)
    (isAt : cursor.At (chars ++ rest)) (behind : next.At rest) :
    fill cls cursor next = List.replicate (byteLength chars) cls := by
  rw [fill, At.pos_eq chars isAt behind, Nat.add_sub_cancel_left]

/-- A comma takes the at sign behind it. -/
theorem token_of_comma {byte next : UInt8} (isCurrent : cursor.current = .ok byte)
    (role : ByteRole.of byte = .comma) (isNext : cursor.advance.current = .ok next) :
    cursor.token true =
      if ByteRole.of next = .atSign then
        .ok (fill .prefixMark cursor cursor.advance.advance, cursor.advance.advance)
      else
        .ok (fill .prefixMark cursor cursor.advance, cursor.advance) := by
  simp only [token, isCurrent, isNext, role, bind, Except.bind, pure, Except.pure, if_true]

/-- A hash starts an atom, unless what follows makes it a mark. -/
theorem token_of_hash {tokenStart : Bool} {byte next : UInt8} {final : Cursor bytes}
    (isCurrent : cursor.current = .ok byte) (role : ByteRole.of byte = .hash)
    (isNext : cursor.peek = .ok next)
    (notMark : ByteRole.of next ≠ .bar ∧ ByteRole.of next ≠ .opening ∧
      ByteRole.of next ≠ .tick ∧ ByteRole.of next ≠ .comma)
    (skipped : cursor.skipAtom = .ok final) :
    cursor.token tokenStart = .ok (fill .atom cursor final, final) := by
  obtain ⟨notBar, notOpening, notTick, notComma⟩ := notMark
  simp only [token, isCurrent, isNext, role, skipped, bind, Except.bind, pure, Except.pure]
  split <;> first | contradiction | rfl

theorem token_of_atom {chars : List Char} {tokenStart : Bool} (isToken : IsToken .atom chars rest)
    (isAt : cursor.At (chars ++ rest)) :
    ∃ next, cursor.token tokenStart = .ok (fill .atom cursor next, next) ∧ next.At rest := by
  obtain ⟨byte, isCurrent, isRole⟩ := isAt.current
  obtain ⟨final, skipped, behind⟩ := skipAtom_of_atom isToken isAt
  refine ⟨final, ?_, behind⟩
  cases isToken with
  | character | cutCharacter =>
      obtain ⟨next, isNext, nextRole⟩ := isAt.peek rfl
      have isEscape : ByteRole.of next = .backslash := nextRole
      exact token_of_hash isCurrent isRole isNext (by rw [isEscape]; decide) skipped
  | @atom first body _ notDelimiter notQuote notComma behindHash isBody =>
      by_cases isHash : first = '#'
      · subst isHash
        obtain ⟨next, isNext, nextRole⟩ := isAt.peek rfl
        have ahead : ByteRole.of next = roleAhead (body ++ rest) := nextRole
        refine token_of_hash isCurrent isRole isNext ?_ skipped
        rw [ahead]
        generalize body ++ rest = later at behindHash
        cases later with
        | nil => decide
        | cons char later =>
            obtain ⟨notQuoted, notBar, _⟩ := behindHash rfl char rfl
            have noMark := mt (isQuotedChar_iff char).mpr (by simp [notQuoted])
            rw [not_or, not_or] at noMark
            exact ⟨ofChar_ne rfl notBar, noMark⟩
      · have role : ByteRole.of byte = .ofChar first := isRole
        have isOther := ofChar_of_atom notDelimiter notQuote notComma isHash
        rcases isOther with same | same | same | same <;>
          simp only [token, isCurrent, role, same, skipped, bind, Except.bind, pure, Except.pure]

theorem token_of_mark {chars : List Char} (isToken : IsToken .mark chars rest)
    (isAt : cursor.At (chars ++ rest)) :
    ∃ next, cursor.token true = .ok (fill .prefixMark cursor next, next) ∧ next.At rest := by
  obtain ⟨byte, isCurrent, isRole⟩ := isAt.current
  cases isToken with
  | @quote char _ isQuote =>
      have isTick := (ofChar_eq_tick_iff char).mpr isQuote
      have single : char.utf8Size = 1 := utf8Size_of_ne_ordinary (by rw [isTick]; decide)
      have role : ByteRole.of byte = .tick := isRole.trans isTick
      refine ⟨cursor.advance, ?_, isAt.advance single⟩
      simp only [token, isCurrent, role, bind, Except.bind, pure, Except.pure, if_true]
  | comma notAt =>
      obtain ⟨next, isNext, nextRole⟩ := isAt.peek rfl
      have noAt : ByteRole.of next ≠ .atSign :=
        fun isAtSign => notAt (head?_of_roleAhead rfl (nextRole.symm.trans isAtSign))
      refine ⟨cursor.advance, ?_, isAt.advance rfl⟩
      rw [token_of_comma isCurrent isRole isNext, if_neg noAt]
  | commaAt =>
      obtain ⟨next, isNext, nextRole⟩ := isAt.peek rfl
      have isAtSign : ByteRole.of next = .atSign := nextRole
      refine ⟨cursor.advance.advance, ?_, (isAt.advance rfl).advance rfl⟩
      rw [token_of_comma isCurrent isRole isNext, if_pos isAtSign]
  | @hash char rest isQuoted =>
      obtain ⟨next, isNext, nextRole⟩ := isAt.peek rfl
      have isHash : ByteRole.of byte = .hash := isRole
      have role : ByteRole.of next = .ofChar char := nextRole
      refine ⟨cursor.advance, ?_, isAt.advance rfl⟩
      rcases (isQuotedChar_iff char).mp isQuoted with same | same | same <;>
        simp only [token, isCurrent, isHash, isNext, role, same, bind, Except.bind, pure,
          Except.pure]

/-- The parts that are passed over in the search for the end of a line. -/
def isLineText (role : ByteRole) : Bool := role ≠ .lineBreak

theorem isLineText_of (byte : UInt8) :
    (byte != 0x0A && byte != 0x0D) = isLineText (.of byte) := by
  revert byte
  exact forall_byte (by decide +kernel)

theorem isLineText_ofChar (char : Char) : isLineText (.ofChar char) = !isBreakChar char := by
  simp [isLineText, ofChar_eq_lineBreak_iff]

theorem token_of_comment {chars : List Char} {tokenStart : Bool}
    (isToken : IsToken .comment chars rest) (isAt : cursor.At (chars ++ rest)) :
    ∃ next, cursor.token tokenStart = .ok (fill .comment cursor next, next) ∧ next.At rest := by
  obtain ⟨byte, isCurrent, isRole⟩ := isAt.current
  cases isToken with
  | @lineComment body _ noBreak isEnd =>
      have eaten : (cursor.eatWhile fun byte => byte != 0x0A && byte != 0x0D).At rest := by
        refine At.eatWhile isLineText_of rfl ?_ ?_ isAt
        · refine List.forall_mem_cons.mpr ⟨rfl, fun char member => ?_⟩
          rw [isLineText_ofChar, noBreak char member]
          rfl
        · intro char isNext
          rw [isLineText_ofChar, isEnd char isNext]
          rfl
      have role : ByteRole.of byte = .semicolon := isRole
      refine ⟨_, ?_, eaten⟩
      simp only [token, isCurrent, role, eatLine, if_pos isAt.within, bind, Except.bind, pure,
        Except.pure]
  | @blockComment body _ isBody =>
      obtain ⟨next, isNext, nextRole⟩ := isAt.peek rfl
      obtain ⟨final, skipped, behind⟩ :=
        skipBlock_of_commentBody isBody (isAt.advanceBy ['#', '|'] rfl)
      have isHash : ByteRole.of byte = .hash := isRole
      have isBar : ByteRole.of next = .bar := nextRole
      have opened : cursor.skipBlock 0 = .ok final := (skipBlock_eq 0 isAt rfl).trans skipped
      refine ⟨final, ?_, behind⟩
      simp only [token, isCurrent, isHash, isNext, isBar, opened, bind, Except.bind, pure,
        Except.pure]

theorem token_of_white_or_bracket {kind : TokenKind} {chars : List Char} {tokenStart : Bool}
    (isToken : IsToken kind chars rest) (isAt : cursor.At (chars ++ rest))
    (isKind : kind = .space ∨ kind = .opening ∨ kind = .closing) :
    ∃ next, cursor.token tokenStart = .ok (fill kind.byteClass cursor next, next) ∧
      next.At rest := by
  obtain ⟨byte, isCurrent, isRole⟩ := isAt.current
  refine ⟨cursor.advance, ?_⟩
  cases isToken with
  | @space char _ isWhite =>
      have role := ofChar_of_isWhiteChar isWhite
      have single : char.utf8Size = 1 := by
        apply utf8Size_of_ne_ordinary
        rcases role with role | role <;> rw [role] <;> decide
      have same : ByteRole.of byte = .ofChar char := isRole
      refine ⟨?_, isAt.advance single⟩
      rcases role with role | role <;>
        simp only [token, isCurrent, same, role, bind, Except.bind, pure, Except.pure] <;> rfl
  | opening isBracket =>
      have role : ByteRole.of byte = .opening := by rcases isBracket with rfl | rfl <;> exact isRole
      refine ⟨?_, isAt.advance (by rcases isBracket with rfl | rfl <;> rfl)⟩
      simp only [token, isCurrent, role, bind, Except.bind, pure, Except.pure]
      rfl
  | closing isBracket =>
      have role : ByteRole.of byte = .closing := by rcases isBracket with rfl | rfl <;> exact isRole
      refine ⟨?_, isAt.advance (by rcases isBracket with rfl | rfl <;> rfl)⟩
      simp only [token, isCurrent, role, bind, Except.bind, pure, Except.pure]
      rfl
  | _ => simp at isKind

theorem token_of_stringToken {chars : List Char} {tokenStart : Bool}
    (isToken : IsToken .string chars rest) (isAt : cursor.At (chars ++ rest)) :
    ∃ next, cursor.token tokenStart = .ok ((Token.mk .string chars).classes, next) ∧
      next.At rest := by
  obtain ⟨byte, isCurrent, isRole⟩ := isAt.current
  cases isToken with
  | @string body _ isBody =>
      have inside : cursor.advance.At (body ++ rest) := isAt.advance rfl
      obtain ⟨final, skipped, behind⟩ := skipString_of_stringBody isBody inside
      refine ⟨final, ?_, behind⟩
      have opened : fill .stringOpen cursor cursor.advance = [.stringOpen] := by
        rw [fill, pos_advance, Nat.add_sub_cancel_left]
        rfl
      have role : ByteRole.of byte = .doubleQuote := isRole
      have isClasses : (Token.mk .string ('"' :: body)).classes =
          .stringOpen :: List.replicate (byteLength body) .stringRest := by
        rw [Token.classes, if_pos rfl, byteLength_cons, show Char.utf8Size '"' = 1 from rfl,
          Nat.add_sub_cancel_left]
      simp only [token, isCurrent, role, skipped, opened, fill_eq _ inside behind, isClasses, bind,
        Except.bind, pure, Except.pure, List.singleton_append]

/-- From in front of a token the pass moves to its end and gives it its classes, whether
or not a token may start there. -/
theorem token_of_isToken {kind : TokenKind} {chars : List Char} {tokenStart : Bool}
    (isToken : IsToken kind chars rest) (isAt : cursor.At (chars ++ rest))
    (mayStart : kind = .mark → tokenStart = true) :
    ∃ next, cursor.token tokenStart = .ok ((Token.mk kind chars).classes, next) ∧ next.At rest := by
  -- All tokens but strings are filled with one class.
  have filled (notString : kind ≠ .string)
      (found : ∃ next, cursor.token tokenStart = .ok (fill kind.byteClass cursor next, next) ∧
        next.At rest) :
      ∃ next, cursor.token tokenStart = .ok ((Token.mk kind chars).classes, next) ∧
        next.At rest := by
    obtain ⟨next, isAnswer, behind⟩ := found
    refine ⟨next, ?_, behind⟩
    rw [isAnswer, fill_eq _ isAt behind, Token.classes, if_neg notString]
  cases kind with
  | space | opening | closing =>
      exact filled (by decide) (token_of_white_or_bracket isToken isAt (by simp))
  | comment => exact filled (by decide) (token_of_comment isToken isAt)
  | string => exact token_of_stringToken isToken isAt
  | mark =>
      rw [mayStart rfl] at filled ⊢
      exact filled (by decide) (token_of_mark isToken isAt)
  | atom => exact filled (by decide) (token_of_atom isToken isAt)

/-! ## The pass -/

/-- The pass over a text that is split into tokens comes to the end of the text, and finds
the classes of the tokens. -/
theorem classifyFrom_of_tokenizes {chars : List Char} {tokens : List Token} {tokenStart : Bool}
    (splits : Tokenizes chars tokens) (isAt : cursor.At chars)
    (behindAtom : tokenStart = false → ∀ char ∈ chars.head?, isDelimiterChar char = true) :
    ∃ final : Cursor bytes, cursor.classifyFrom tokenStart =
        .ok (tokens.flatMap Token.classes, final) ∧ final.pos = bytes.length := by
  induction splits generalizing cursor tokenStart with
  | nil =>
      have length := isAt.pos_add
      rw [byteLength_nil] at length
      refine ⟨cursor, ?_, length⟩
      rw [classifyFrom.eq_def, dif_pos (by omega)]
      rfl
  | @cons kind chars rest tokens isToken _ inductionHypothesis =>
      obtain ⟨first, body, rfl⟩ := List.exists_cons_of_ne_nil isToken.ne_nil
      have mayStart (isMark : kind = .mark) : tokenStart = true := by
        cases isStart : tokenStart with
        | true => rfl
        | false =>
            have isDelimiter := behindAtom isStart first rfl
            rw [isToken.not_isDelimiterChar (.inr isMark) first rfl] at isDelimiter
            contradiction
      obtain ⟨next, isNext, behind⟩ := token_of_isToken isToken isAt mayStart
      have moved := At.pos_eq (first :: body) isAt behind
      have positive := byteLength_pos isToken.ne_nil
      have later : decide ((Token.mk kind (first :: body)).classes.getLast? ≠ some .atom) = false →
          ∀ char ∈ rest.head?, isDelimiterChar char = true := by
        intro isLast
        rw [decide_eq_false_iff_not, ne_eq, Decidable.not_not] at isLast
        have isAtom := (Token.mem_classes_iff isToken.ne_nil).mp (List.mem_of_getLast? isLast)
        subst isAtom
        exact isToken.delimited
      obtain ⟨final, isFinal, atEnd⟩ := inductionHypothesis behind later
      refine ⟨final, ?_, atEnd⟩
      rw [classifyFrom.eq_def, dif_neg (Nat.not_le.mpr isAt.pos_lt), isNext]
      simp only [dif_pos (show cursor.pos < next.pos by omega), isFinal, List.flatMap_cons]

end Cursor

/-! ## The tokens of a text -/

theorem Token.head?_classes {token : Token} (notEmpty : token.chars ≠ []) :
    token.classes.head? =
      some (if token.kind = .string then .stringOpen else token.kind.byteClass) := by
  have positive := byteLength_pos notEmpty
  unfold classes
  split
  · rfl
  · rw [List.head?_replicate, if_neg (by omega)]

/-- The classes of a token tell its kind. -/
theorem Token.kind_eq_of_classes {token other : Token} (notEmpty : token.chars ≠ [])
    (otherNotEmpty : other.chars ≠ []) (same : token.classes = other.classes) :
    token.kind = other.kind := by
  have first := congrArg List.head? same
  rw [head?_classes notEmpty, head?_classes otherNotEmpty, Option.some.injEq] at first
  cases kind : token.kind <;> cases otherKind : other.kind <;>
    simp_all [TokenKind.byteClass]

/-- Two fronts of a text behind which equally many bytes are left are the same. -/
theorem append_inj_of_byteLength {front rest otherFront otherRest : List Char}
    (same : front ++ rest = otherFront ++ otherRest)
    (length : byteLength rest = byteLength otherRest) : front = otherFront ∧ rest = otherRest := by
  rcases List.append_eq_append_iff.mp same with ⟨middle, rfl, rfl⟩ | ⟨middle, rfl, rfl⟩ <;>
    rw [byteLength_append] at length <;>
    obtain rfl := eq_nil_of_byteLength (show byteLength middle = 0 by omega) <;> simp

/-- A text starts with one token only: the pass finds it. -/
theorem IsToken.unique {kind other : TokenKind} {chars rest otherChars otherRest : List Char}
    (isToken : IsToken kind chars rest) (isOther : IsToken other otherChars otherRest)
    (same : chars ++ rest = otherChars ++ otherRest) :
    kind = other ∧ chars = otherChars ∧ rest = otherRest := by
  have isAt : (⟨0⟩ : Cursor (utf8Bytes (chars ++ rest))).At (chars ++ rest) := ⟨Nat.zero_le _, rfl⟩
  have isOtherAt : (⟨0⟩ : Cursor (utf8Bytes (chars ++ rest))).At (otherChars ++ otherRest) :=
    ⟨Nat.zero_le _, congrArg utf8Bytes same⟩
  obtain ⟨next, isNext, behind⟩ := Cursor.token_of_isToken isToken isAt (fun _ => rfl)
  obtain ⟨otherNext, isOtherNext, otherBehind⟩ :=
    Cursor.token_of_isToken isOther isOtherAt (fun _ => rfl)
  rw [isNext, Except.ok.injEq, Prod.mk.injEq] at isOtherNext
  obtain ⟨sameClasses, rfl⟩ := isOtherNext
  have length := behind.pos_add.trans otherBehind.pos_add.symm
  refine ⟨Token.kind_eq_of_classes isToken.ne_nil isOther.ne_nil sameClasses, ?_⟩
  exact append_inj_of_byteLength same (by omega)

theorem Tokenizes.unique {chars : List Char} {tokens others : List Token}
    (splits : Tokenizes chars tokens) (otherSplits : Tokenizes chars others) : others = tokens := by
  induction splits generalizing others with
  | nil =>
      rcases otherSplits.cases_token with ⟨_, rfl⟩ | ⟨_, token, _, _, same, _, isToken, _⟩
      · rfl
      · exact absurd (List.append_eq_nil_iff.mp same.symm).1 isToken.ne_nil
  | cons isToken _ inductionHypothesis =>
      rcases otherSplits.cases_token with ⟨empty, _⟩ | ⟨_, _, _, _, same, rfl, isOther, later⟩
      · exact absurd (List.append_eq_nil_iff.mp empty).1 isToken.ne_nil
      · obtain ⟨rfl, rfl, rfl⟩ := isToken.unique isOther same
        rw [inductionHypothesis later]

/-- Every text can be split into tokens in one way.  The lexer gives it the classes of its
tokens, and so does the cursor pass.  Every atom among the tokens is a maximal run of
bytes of its class. -/
theorem classify_eq_tokens (text : String) :
    ∃ tokens, Tokenizes text.toList tokens ∧
      (∀ others, Tokenizes text.toList others → others = tokens) ∧
      classify (encode text) = tokens.flatMap Token.classes ∧
      (⟨0⟩ : Cursor (encode text)).classify = .ok (tokens.flatMap Token.classes) ∧
      ∀ before token after, tokens = before ++ token :: after → token.kind = .atom →
        (before.flatMap Token.classes).getLast? ≠ some .atom ∧
          (after.flatMap Token.classes).head? ≠ some .atom := by
  obtain ⟨tokens, splits⟩ := exists_tokenizes text.toList
  refine ⟨tokens, splits, fun others => splits.unique, ?_, ?_, ?_⟩
  · rw [classify_encode, splits.classifyFrom_eq]
  · have fromStart := Cursor.At.start text
    generalize (⟨0⟩ : Cursor (encode text)) = cursor at fromStart
    have mayStart : true = false → ∀ char ∈ text.toList.head?, isDelimiterChar char = true := by
      simp
    obtain ⟨final, isFinal, _⟩ := Cursor.classifyFrom_of_tokenizes splits fromStart mayStart
    rw [Cursor.classify, isFinal]
    rfl
  · rintro before token after rfl isAtom
    exact splits.atom_maximal isAtom

/-- A mark, a character literal with a bar section, and a string that is never closed. -/
theorem classify_eq_tokens_of_cut_string :
    let text := ",@#\\(| | \"\\\""
    let tokens : List Token := [⟨.mark, [',', '@']⟩, ⟨.atom, ['#', '\\', '(', '|', ' ', '|']⟩,
      ⟨.space, [' ']⟩, ⟨.string, ['"', '\\', '"']⟩]
    Tokenizes text.toList tokens ∧ classify (encode text) = tokens.flatMap Token.classes ∧
      (⟨0⟩ : Cursor (encode text)).classify = .ok (tokens.flatMap Token.classes) := by
  intro text tokens
  have splits : Tokenizes text.toList tokens := by
    have isText : text.toList =
        [',', '@', '#', '\\', '(', '|', ' ', '|', ' ', '"', '\\', '"'] := by
      decide +kernel
    have isBody : AtomBody ['|', ' ', '|'] [' ', '"', '\\', '"'] :=
      @AtomBody.bars [' '] [] _ (by decide) (.ended (by rintro _ ⟨⟩; rfl))
    rw [isText]
    exact .cons .commaAt (.cons (.character isBody)
      (.cons (.space rfl) (.cons (.string (.escape .ended)) .nil)))
  obtain ⟨found, _, unique, isClasses, isPass, _⟩ := classify_eq_tokens text
  obtain rfl := unique tokens splits
  exact ⟨splits, isClasses, isPass⟩

end SchemeLayout
