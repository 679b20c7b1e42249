import SchemeLayout.Proofs.TokenGrammar

/-!
The lexer follows the token grammar.

Between two tokens the lexer reads the next token as a whole: it gives the bytes of
the token their class, and goes on behind the token as between tokens, whatever
state it has reached there.  So a text has the classes of its tokens.
-/

set_option autoImplicit false

namespace SchemeLayout

/-! ## Roles of the characters that the grammar names -/

theorem ofChar_of_isWhiteChar {char : Char} (isWhite : isWhiteChar char = true) :
    ByteRole.ofChar char = .blank ∨ ByteRole.ofChar char = .lineBreak := by
  unfold ByteRole.ofChar
  split <;> simp_all [isWhiteChar]

theorem ofChar_eq_lineBreak_iff (char : Char) :
    ByteRole.ofChar char = .lineBreak ↔ isBreakChar char = true := by
  unfold ByteRole.ofChar
  split <;> simp_all [isBreakChar]

theorem endsAtom_ofChar (char : Char) :
    (ByteRole.ofChar char).endsAtom = isDelimiterChar char := by
  unfold ByteRole.ofChar
  split <;> simp_all [isDelimiterChar, isWhiteChar, ByteRole.endsAtom]

theorem ofChar_eq_tick_iff (char : Char) :
    ByteRole.ofChar char = .tick ↔ isQuoteChar char = true := by
  unfold ByteRole.ofChar
  split <;> simp_all [isQuoteChar]

theorem isQuotedChar_iff (char : Char) :
    isQuotedChar char = true ↔ ByteRole.ofChar char = .opening ∨ ByteRole.ofChar char = .tick ∨
      ByteRole.ofChar char = .comma := by
  unfold ByteRole.ofChar
  split <;> simp_all [isQuotedChar, isQuoteChar]

theorem ofChar_ne {role : ByteRole} {char only : Char} (isOnly : role.char? = some only)
    (differs : char ≠ only) : ByteRole.ofChar char ≠ role :=
  mt (ByteRole.ofChar_eq_iff isOnly).mp differs

/-! ## Bodies of one class -/

/-- From `state` on, the lexer gives all bytes of a body one class, and what follows the
body is read as between tokens. -/
def Covers (state : LexState) (cls : ByteClass) (body rest : List Char) : Prop :=
  classifyFrom state (rolesOf (body ++ rest)) =
    List.replicate (byteLength body) cls ++ classifyFrom .between (rolesOf rest)

namespace Covers

variable {state : LexState} {cls : ByteClass} {body rest : List Char}

/-- Only how the first character is read matters. -/
theorem congr {other : LexState}
    (alike : ∀ char ∈ (body ++ rest).head?, ∀ next,
      state.step (.ofChar char) next = other.step (.ofChar char) next)
    (covers : Covers other cls body rest) : Covers state cls body rest := by
  rw [Covers, ← covers]
  generalize body ++ rest = chars at alike
  cases chars with
  | nil => rfl
  | cons char chars => rw [classifyFrom_char, classifyFrom_char, alike char rfl]

theorem nil (alike : ∀ char ∈ rest.head?, ∀ next,
      state.step (.ofChar char) next = LexState.between.step (.ofChar char) next) :
    Covers state cls [] rest :=
  congr alike rfl

theorem cons {char : Char} {behind : LexState}
    (step : state.step (.ofChar char) ((body ++ rest).head?.map .ofChar) = (cls, behind))
    (covers : Covers behind cls body rest) : Covers state cls (char :: body) rest := by
  rw [Covers, List.cons_append, classifyFrom_char, step, covers, byteLength_cons,
    ← List.replicate_append_replicate, List.append_assoc]

/-- The lexer may stay in its state over a run of characters. -/
theorem run {run : List Char}
    (stays : ∀ char ∈ run, ∀ next, state.step (.ofChar char) next = (cls, state))
    (covers : Covers state cls body rest) : Covers state cls (run ++ body) rest := by
  induction run with
  | nil => exact covers
  | cons char run inductionHypothesis =>
      rw [List.forall_mem_cons] at stays
      exact .cons (stays.1 _) (inductionHypothesis stays.2)

end Covers

theorem StringBody.covers {body rest : List Char} (isBody : StringBody body rest) :
    Covers .string .stringRest body rest := by
  induction isBody with
  | closed => exact .cons rfl (.nil fun _ _ _ => rfl)
  | ended => rfl
  | cutEscape => rfl
  | escape _ inductionHypothesis => exact .cons rfl (.cons rfl inductionHypothesis)
  | @plain char _ _ notQuote notEscape _ inductionHypothesis =>
      have noQuote : ByteRole.ofChar char ≠ .doubleQuote := ofChar_ne rfl notQuote
      have noEscape : ByteRole.ofChar char ≠ .backslash := ofChar_ne rfl notEscape
      refine .cons ?_ inductionHypothesis
      simp only [LexState.step]

/-- Half a mark that is not completed is forgotten. -/
theorem Covers.halfMark {depth : Nat} {mark : HalfMark} {body rest : List Char}
    (noBar : mark = .hash → (body ++ rest).head? ≠ some '|')
    (noHash : mark = .bar → (body ++ rest).head? ≠ some '#')
    (covers : Covers (.blockComment depth none) .comment body rest) :
    Covers (.blockComment depth (some mark)) .comment body rest := by
  refine .congr (fun char isNext next => ?_) covers
  rw [isNext] at noBar noHash
  cases mark with
  | hash =>
      have incomplete : ByteRole.ofChar char ≠ .bar :=
        ofChar_ne rfl fun isBar => noBar rfl (congrArg some isBar)
      cases role : ByteRole.ofChar char <;> first | rfl | contradiction
  | bar =>
      have incomplete : ByteRole.ofChar char ≠ .hash :=
        ofChar_ne rfl fun isHash => noHash rfl (congrArg some isHash)
      cases role : ByteRole.ofChar char <;> first | rfl | contradiction

/-- A comment that nothing is left of ends with the text. -/
theorem CommentBody.head?_append {depth : Nat} {body rest : List Char}
    (isBody : CommentBody depth body rest) : (body ++ rest).head? = body.head? := by
  cases isBody <;> rfl

theorem CommentBody.covers {depth : Nat} {body rest : List Char}
    (isBody : CommentBody depth body rest) :
    Covers (.blockComment (depth + 1) none) .comment body rest := by
  induction isBody with
  | closed => exact .cons rfl (.cons rfl (.nil fun _ _ _ => rfl))
  | ended => rfl
  | opens _ inductionHypothesis => exact .cons rfl (.cons rfl inductionHypothesis)
  | closes _ inductionHypothesis => exact .cons rfl (.cons rfl inductionHypothesis)
  | @plain depth char body rest notOpening notClosing isBody inductionHypothesis =>
      rw [← isBody.head?_append] at notOpening notClosing
      by_cases isHash : char = '#'
      · rw [isHash]
        exact .cons rfl (.halfMark (fun _ => notOpening isHash) (by simp) inductionHypothesis)
      · by_cases isBar : char = '|'
        · rw [isBar]
          exact .cons rfl (.halfMark (by simp) (fun _ => notClosing isBar) inductionHypothesis)
        · have noHash : ByteRole.ofChar char ≠ .hash := ofChar_ne rfl isHash
          have noBar : ByteRole.ofChar char ≠ .bar := ofChar_ne rfl isBar
          refine .cons ?_ inductionHypothesis
          simp only [LexState.step, LexState.stepBlock]

theorem step_atom_of_delimiter {char : Char} (isDelimiter : isDelimiterChar char = true)
    (next : Option ByteRole) :
    LexState.atom.step (.ofChar char) next = LexState.between.step (.ofChar char) next := by
  rw [← endsAtom_ofChar] at isDelimiter
  simp only [LexState.step, LexState.stepAtom, isDelimiter, if_true]

theorem step_atomBar_of_ne {char : Char} (notBar : char ≠ '|') (next : Option ByteRole) :
    LexState.atomBar.step (.ofChar char) next = (.atom, .atomBar) :=
  if_neg (ofChar_ne rfl notBar)

theorem AtomBody.covers {body rest : List Char} (isBody : AtomBody body rest) :
    Covers .atom .atom body rest := by
  have inBars {inner : List Char} (noBar : '|' ∉ inner) :
      ∀ char ∈ inner, ∀ next,
        LexState.atomBar.step (.ofChar char) next = (.atom, .atomBar) := by
    intro char member
    exact step_atomBar_of_ne fun isBar => noBar (isBar ▸ member)
  induction isBody with
  | ended isEnd => exact .nil fun char isNext => step_atom_of_delimiter (isEnd char isNext)
  | @plain char _ _ notDelimiter notBar _ inductionHypothesis =>
      have noBar : ByteRole.ofChar char ≠ .bar := ofChar_ne rfl notBar
      rw [← endsAtom_ofChar] at notDelimiter
      refine .cons ?_ inductionHypothesis
      simp only [LexState.step, LexState.stepAtom, notDelimiter, noBar, Bool.false_eq_true,
        if_false]
  | bars noBar _ inductionHypothesis =>
      exact .cons rfl (.run (inBars noBar) (.cons rfl inductionHypothesis))
  | @cutBars inner noBar =>
      refine .cons rfl ?_
      rw [← List.append_nil inner]
      exact .run (inBars noBar) rfl

/-! ## Tokens -/

/-- A character that starts an atom, other than a hash, plays no part between tokens. -/
theorem ofChar_of_atom {char : Char} (notDelimiter : isDelimiterChar char = false)
    (notQuote : isQuoteChar char = false) (notComma : char ≠ ',') (notHash : char ≠ '#') :
    ByteRole.ofChar char = .atSign ∨ ByteRole.ofChar char = .bar ∨
      ByteRole.ofChar char = .backslash ∨ ByteRole.ofChar char = .ordinary := by
  have noQuote : ByteRole.ofChar char ≠ .tick := by simp [ofChar_eq_tick_iff, notQuote]
  have noComma : ByteRole.ofChar char ≠ .comma := ofChar_ne rfl notComma
  have noHash : ByteRole.ofChar char ≠ .hash := ofChar_ne rfl notHash
  rw [← endsAtom_ofChar] at notDelimiter
  cases role : ByteRole.ofChar char <;> simp_all [ByteRole.endsAtom]

/-- Between tokens an atom is read as inside it, unless it starts with a hash. -/
theorem step_between_of_atom {char : Char} (notDelimiter : isDelimiterChar char = false)
    (notQuote : isQuoteChar char = false) (notComma : char ≠ ',') (notHash : char ≠ '#')
    (next : Option ByteRole) :
    LexState.between.step (.ofChar char) next = LexState.atom.step (.ofChar char) next := by
  rcases ofChar_of_atom notDelimiter notQuote notComma notHash with role | role | role | role <;>
    rw [role] <;> rfl

theorem covers_atom_of_hash {body rest : List Char}
    (behindHash : ∀ next ∈ (body ++ rest).head?,
      isQuotedChar next = false ∧ next ≠ '|' ∧ next ≠ '\\')
    (isBody : AtomBody ('#' :: body) rest) : Covers .between .atom ('#' :: body) rest := by
  cases isBody with
  | plain _ _ isBody =>
      have fromHash : Covers .atomHash .atom body rest := by
        refine .congr ?_ isBody.covers
        intro char isNext next
        exact if_neg (ofChar_ne rfl (behindHash char isNext).2.2)
      refine .cons ?_ fromHash
      cases isNext : (body ++ rest).head? with
      | none => rfl
      | some char =>
          obtain ⟨notQuoted, notBar, _⟩ := behindHash char isNext
          have noBar : ByteRole.ofChar char ≠ .bar := ofChar_ne rfl notBar
          have noMark := mt (isQuotedChar_iff char).mpr (by simp [notQuoted])
          cases role : ByteRole.ofChar char <;> simp_all <;> rfl

theorem IsToken.covers {kind : TokenKind} {chars rest : List Char}
    (isToken : IsToken kind chars rest) (notString : kind ≠ .string) :
    Covers .between kind.byteClass chars rest := by
  have nothing {cls : ByteClass} : Covers .between cls [] rest := rfl
  cases isToken with
  | @space char _ isWhite =>
      refine .cons ?_ nothing
      rcases ofChar_of_isWhiteChar isWhite with role | role <;> rw [role] <;> rfl
  | @lineComment body _ noBreak isEnd =>
      refine .cons rfl ?_
      rw [← List.append_nil body]
      refine .run ?_ (.nil ?_)
      · intro char member next
        have inLine := mt (ofChar_eq_lineBreak_iff char).mp (by simp [noBreak char member])
        exact if_neg inLine
      · intro char isNext next
        exact if_pos ((ofChar_eq_lineBreak_iff char).mpr (isEnd char isNext))
  | blockComment isBody => exact .cons rfl (.cons rfl isBody.covers)
  | string => contradiction
  | opening isBracket => rcases isBracket with rfl | rfl <;> exact .cons rfl nothing
  | closing isBracket => rcases isBracket with rfl | rfl <;> exact .cons rfl nothing
  | @quote char _ isQuote =>
      have isTick := (ofChar_eq_tick_iff char).mpr isQuote
      refine .cons ?_ nothing
      rw [isTick]
      rfl
  | comma notAt =>
      refine .cons rfl (.nil ?_)
      intro char isNext next
      have noAt : char ≠ '@' := fun isAt => notAt (isAt ▸ isNext)
      exact if_neg (ofChar_ne rfl noAt)
  | commaAt => exact .cons rfl (.cons rfl nothing)
  | @hash char rest isQuoted =>
      refine .cons ?_ nothing
      rcases (isQuotedChar_iff char).mp isQuoted with role | role | role <;>
        simp only [List.nil_append, List.head?_cons, Option.map_some, role] <;> rfl
  | character isBody => exact .cons rfl (.cons rfl (.cons rfl isBody.covers))
  | cutCharacter => rfl
  | @atom first body _ notDelimiter notQuote notComma behindHash isBody =>
      by_cases isHash : first = '#'
      · subst isHash
        exact covers_atom_of_hash (behindHash rfl) isBody
      · refine .congr ?_ isBody.covers
        rintro char ⟨⟩
        exact step_between_of_atom notDelimiter notQuote notComma isHash

/-- Between tokens, a token gets its classes and the lexer goes on between tokens. -/
theorem IsToken.classifyFrom_eq {kind : TokenKind} {chars rest : List Char}
    (isToken : IsToken kind chars rest) :
    classifyFrom .between (rolesOf (chars ++ rest)) =
      (Token.mk kind chars).classes ++ classifyFrom .between (rolesOf rest) := by
  unfold Token.classes
  split
  next isString =>
    cases isString
    cases isToken with
    | string isBody =>
        rw [List.cons_append, classifyFrom_char, byteLength_cons,
          show Char.utf8Size '"' = 1 from rfl, Nat.add_sub_cancel_left]
        exact congrArg _ isBody.covers
  next notString => exact isToken.covers notString

/-- A text has the classes of its tokens. -/
theorem Tokenizes.classifyFrom_eq {chars : List Char} {tokens : List Token}
    (splits : Tokenizes chars tokens) :
    classifyFrom .between (rolesOf chars) = tokens.flatMap Token.classes := by
  induction splits with
  | nil => rfl
  | cons isToken _ inductionHypothesis =>
      rw [isToken.classifyFrom_eq, inductionHypothesis, List.flatMap_cons]

end SchemeLayout
