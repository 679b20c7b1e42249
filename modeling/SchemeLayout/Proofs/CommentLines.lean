import SchemeLayout.Editor.TextEdit
import SchemeLayout.Proofs.TokenPass

/-!
Lines that start like a comment.

A line break typed on a line is continued by a comment mark if the line starts with
that mark, whatever the lexer makes of it.  A semicolon starts a comment, unless it
stands inside another token.  So the line is a comment line, except where a string
or an atom reaches over its start.
-/

set_option autoImplicit false

namespace SchemeLayout

/-! ## Inside a token -/

/-- A token of this kind starts before the offset and ends behind it. -/
def InsideToken (kind : TokenKind) (text : String) (offset : Nat) : Prop :=
  ∃ before chars after, Tokenizes text.toList (before ++ ⟨kind, chars⟩ :: after) ∧
    byteLength (before.flatMap Token.chars) < offset ∧
    offset < byteLength (before.flatMap Token.chars) + byteLength chars

namespace Token

variable {token : Token}

theorem length_classes (notEmpty : token.chars ≠ []) :
    token.classes.length = byteLength token.chars := by
  have positive := byteLength_pos notEmpty
  unfold classes
  split
  · rw [List.length_cons, List.length_replicate]
    omega
  · exact List.length_replicate

/-- Behind the first byte, the bytes of a token have the class of its kind. -/
theorem getElem?_classes {index : Nat} (isBehind : 0 < index)
    (within : index < byteLength token.chars) :
    token.classes[index]? = some token.kind.byteClass := by
  unfold classes
  split
  next isString =>
    obtain ⟨index, rfl⟩ := Nat.exists_eq_succ_of_ne_zero (Nat.ne_of_gt isBehind)
    rw [List.getElem?_cons_succ, List.getElem?_replicate, if_pos (by omega), isString]
    rfl
  next => rw [List.getElem?_replicate, if_pos within]

end Token

namespace Tokenizes

variable {chars : List Char} {tokens : List Token}

theorem flatMap_chars (splits : Tokenizes chars tokens) : tokens.flatMap Token.chars = chars := by
  induction splits with
  | nil => rfl
  | cons _ _ inductionHypothesis => rw [List.flatMap_cons, inductionHypothesis]

theorem length_flatMap_classes {before after : List Token}
    (splits : Tokenizes chars (before ++ after)) :
    (before.flatMap Token.classes).length = byteLength (before.flatMap Token.chars) := by
  induction before generalizing chars with
  | nil => rfl
  | cons token before inductionHypothesis =>
      have notEmpty := splits.ne_nil token (by simp)
      cases splits with
      | cons _ later =>
          rw [List.flatMap_cons, List.flatMap_cons, List.length_append, byteLength_append,
            Token.length_classes notEmpty, inductionHypothesis later]

/-- The classes from the start of a token on. -/
theorem drop_flatMap_classes {before after : List Token} {token : Token}
    (splits : Tokenizes chars (before ++ token :: after)) :
    ((before ++ token :: after).flatMap Token.classes).drop
      (byteLength (before.flatMap Token.chars)) =
        token.classes ++ after.flatMap Token.classes := by
  rw [List.flatMap_append, ← splits.length_flatMap_classes, List.drop_left, List.flatMap_cons]

/-- Every byte belongs to a token. -/
theorem exists_token_at (splits : Tokenizes chars tokens) {offset : Nat}
    (within : offset < byteLength chars) :
    ∃ before token after, tokens = before ++ token :: after ∧
      byteLength (before.flatMap Token.chars) ≤ offset ∧
      offset < byteLength (before.flatMap Token.chars) + byteLength token.chars := by
  induction splits generalizing offset with
  | nil => contradiction
  | @cons kind chars rest tokens _ _ inductionHypothesis =>
      by_cases inFirst : offset < byteLength chars
      · exact ⟨[], ⟨kind, chars⟩, tokens, rfl, Nat.zero_le _, by simpa using inFirst⟩
      · rw [byteLength_append] at within
        have later : offset - byteLength chars < byteLength rest := by omega
        obtain ⟨before, token, after, rfl, isBehind, isBefore⟩ := inductionHypothesis later
        refine ⟨⟨kind, chars⟩ :: before, token, after, rfl, ?_, ?_⟩
        · simp only [List.flatMap_cons, byteLength_append]
          omega
        · simp only [List.flatMap_cons, byteLength_append]
          omega

end Tokenizes

section Offset

variable {text : String} {offset : Nat}

/-- A byte inside a token has the class of its kind. -/
theorem InsideToken.class_eq {kind : TokenKind} (inside : InsideToken kind text offset) :
    (classify (encode text))[offset]? = some kind.byteClass := by
  obtain ⟨before, chars, after, splits, isBehind, isBefore⟩ := inside
  obtain ⟨index, rfl⟩ := Nat.exists_eq_add_of_lt isBehind
  have notEmpty := splits.ne_nil ⟨kind, chars⟩ (by simp)
  have within : index + 1 < byteLength chars := by omega
  rw [classify_encode, splits.classifyFrom_eq, Nat.add_assoc, ← List.getElem?_drop,
    splits.drop_flatMap_classes,
    List.getElem?_append_left (by rw [Token.length_classes notEmpty]; exact within)]
  exact Token.getElem?_classes (Nat.succ_pos index) within

/-- A byte is the first one of a token, or it stands inside one. -/
theorem first_or_insideToken (within : offset < byteLength text.toList) :
    (∃ before token after, Tokenizes text.toList (before ++ token :: after) ∧
      byteLength (before.flatMap Token.chars) = offset) ∨
    ∃ kind, InsideToken kind text offset := by
  obtain ⟨tokens, splits⟩ := exists_tokenizes text.toList
  obtain ⟨before, token, after, rfl, isBehind, isBefore⟩ := splits.exists_token_at within
  rcases Nat.eq_or_lt_of_le isBehind with isFirst | isInside
  · exact .inl ⟨before, token, after, splits, isFirst⟩
  · exact .inr ⟨token.kind, before, token.chars, after, splits, isInside, isBefore⟩

/-! ## Semicolons -/

theorem LexState.step_semicolon (state : LexState) (next : Option ByteRole) :
    (state.step .semicolon next).1 = .comment ∨ (state.step .semicolon next).1 = .stringRest ∨
      (state.step .semicolon next).1 = .atom := by
  cases state <;> simp [step, stepBetween, stepAtom, ByteRole.endsAtom]

/-- At the start of a token stands the role of its first character. -/
theorem Tokenizes.getElem?_rolesOf {before after : List Token} {token : Token}
    (splits : Tokenizes text.toList (before ++ token :: after)) :
    (rolesOf text.toList)[byteLength (before.flatMap Token.chars)]? =
      token.chars.head?.map .ofChar := by
  have notEmpty := splits.ne_nil token (by simp)
  rw [← splits.flatMap_chars, List.flatMap_append, List.flatMap_cons, rolesOf_append,
    ← length_rolesOf, List.getElem?_append_right (Nat.le_refl _), Nat.sub_self,
    ← List.head?_eq_getElem?, head?_rolesOf, List.head?_append,
    Option.or_of_isSome (by simpa using notEmpty)]

/-- A semicolon belongs to a comment, unless it stands inside a string or an atom. -/
theorem comment_or_insideToken (isSemicolon : (rolesOf text.toList)[offset]? = some .semicolon) :
    (classify (encode text))[offset]? = some .comment ∨ InsideToken .string text offset ∨
      InsideToken .atom text offset := by
  have within : offset < byteLength text.toList := by
    rw [← length_rolesOf]
    exact (List.getElem?_eq_some_iff.mp isSemicolon).1
  obtain ⟨cls, isClass⟩ : ∃ cls, (classify (encode text))[offset]? = some cls := by
    rw [classify_encode]
    exact ⟨_, List.getElem?_eq_getElem (by rwa [length_classifyFrom, length_rolesOf])⟩
  have known : cls = .comment ∨ cls = .stringRest ∨ cls = .atom := by
    rw [classify_encode] at isClass
    obtain ⟨state, role, next, isRole, rfl⟩ := exists_step_of_classifyFrom isClass
    rw [isSemicolon, Option.some.injEq] at isRole
    subst isRole
    exact state.step_semicolon next
  rcases first_or_insideToken within with ⟨before, token, after, splits, rfl⟩ | ⟨kind, inside⟩
  · left
    have notEmpty := splits.ne_nil token (by simp)
    -- No string goes on with its first byte, and no atom starts with a semicolon.
    have isFirst : cls = if token.kind = .string then .stringOpen else token.kind.byteClass := by
      rw [classify_encode, splits.classifyFrom_eq, ← List.head?_drop, splits.drop_flatMap_classes,
        List.head?_append, Token.head?_classes notEmpty] at isClass
      exact (Option.some.inj isClass).symm
    have notAtom : token.kind ≠ .atom := by
      intro isAtom
      obtain ⟨rest, later⟩ := splits.exists_of_append
      cases later with
      | @cons kind chars rest _ isToken _ =>
          rw [splits.getElem?_rolesOf, Option.map_eq_some_iff] at isSemicolon
          obtain ⟨char, isHead, role⟩ := isSemicolon
          have notDelimiter := isToken.not_isDelimiterChar (.inl isAtom) char isHead
          rw [(ByteRole.ofChar_eq_iff rfl).mp role] at notDelimiter
          contradiction
    rw [isClass, Option.some.injEq]
    cases kind : token.kind <;> simp_all [TokenKind.byteClass]
  · have sameClass := inside.class_eq
    rw [isClass, Option.some.injEq] at sameClass
    cases kind with
    | comment =>
        left
        rw [isClass, sameClass]
        rfl
    | string => exact .inr (.inl inside)
    | atom => exact .inr (.inr inside)
    | space | opening | closing | mark => simp [sameClass, TokenKind.byteClass] at known

end Offset

/-! ## Line breaks typed on a line -/

def semicolon : UInt8 := 0x3B

theorem continuesComment_of_extendLineBreak? {source : Source} {style : Style} {edit : TextEdit}
    (isMark : style.config.commentMark.head? = some semicolon)
    (continued : (source.extendLineBreak? style edit).map TextEdit.text =
      some (edit.text ++ style.config.commentMark ++ [space])) :
    continuesComment style.config (source.lineBytes edit.offset) = true := by
  unfold Source.extendLineBreak? at continued
  split at continued
  · contradiction
  split at continued
  next continues => exact continues
  next =>
    -- Indentation consists of spaces, and a mark does not start with one.
    exfalso
    obtain ⟨rest, isRest⟩ := List.head?_eq_some_iff.mp isMark
    rw [Option.map_some, Option.some.injEq, List.append_assoc, List.append_cancel_left_eq,
      isRest] at continued
    have inSpaces : semicolon ∈ spaces (source.indentation style edit.offset) := by
      rw [continued]
      exact List.mem_cons_self
    exact absurd (List.eq_of_mem_replicate inSpaces) (by decide)

theorem head?_of_continuesComment {config : Config} {line : Bytes} {byte : UInt8}
    (isMark : config.commentMark.head? = some byte)
    (continues : continuesComment config line = true) : line.head? = some byte := by
  simp only [continuesComment, Bool.and_eq_true] at continues
  obtain ⟨rest, rfl⟩ := List.isPrefixOf_iff_prefix.mp continues.1.2
  rw [List.head?_append, isMark]
  rfl

theorem Source.getElem?_lineStart {source : Source} {offset : Nat} {byte : UInt8}
    (isFirst : (source.lineBytes offset).head? = some byte) :
    source.bytes[source.lineStart offset]? = some byte := by
  obtain ⟨rest, isLine⟩ := List.head?_eq_some_iff.mp isFirst
  rw [← List.head?_drop, ← List.take_append_drop (source.lineEnd offset - source.lineStart offset)
    (source.bytes.drop _)]
  rw [lineBytes, range] at isLine
  rw [isLine]
  rfl

/-- A line break is continued by a comment mark only on lines that start with a semicolon.
The lexer takes the first byte of such a line for a comment, unless the line starts inside a
string or inside an atom, to which the byte then belongs. -/
theorem continued_line_isComment_iff {text : String} {style : Style} {edit : TextEdit}
    (isMark : style.config.commentMark.head? = some semicolon)
    (continued : ((Source.ofString text).extendLineBreak? style edit).map TextEdit.text =
      some (edit.text ++ style.config.commentMark ++ [space])) :
    let source := Source.ofString text
    let start := source.lineStart edit.offset
    (source.classAt? start = some .comment ↔
      ¬ InsideToken .string text start ∧ ¬ InsideToken .atom text start) ∧
    (source.classAt? start = some .stringRest ↔ InsideToken .string text start) ∧
    (source.classAt? start = some .atom ↔ InsideToken .atom text start) := by
  intro source start
  have isFirst : source.bytes[start]? = some semicolon :=
    Source.getElem?_lineStart
      (head?_of_continuesComment isMark (continuesComment_of_extendLineBreak? isMark continued))
  have isSemicolon : (rolesOf text.toList)[start]? = some .semicolon := by
    rw [← map_of_encode, List.getElem?_map]
    exact congrArg (Option.map ByteRole.of) isFirst
  have inString (inside : InsideToken .string text start) :
      source.classAt? start = some .stringRest := inside.class_eq
  have inAtom (inside : InsideToken .atom text start) :
      source.classAt? start = some .atom := inside.class_eq
  have known : source.classAt? start = some .comment ∨ InsideToken .string text start ∨
      InsideToken .atom text start := comment_or_insideToken isSemicolon
  have notBoth (inside : InsideToken .string text start) : ¬ InsideToken .atom text start := by
    intro other
    have isString := inString inside
    rw [inAtom other] at isString
    contradiction
  rcases known with isComment | inside | inside
  · have notString : ¬ InsideToken .string text start := fun inside => by
      simp [inString inside] at isComment
    have notAtom : ¬ InsideToken .atom text start := fun inside => by
      simp [inAtom inside] at isComment
    simp [isComment, notString, notAtom]
  · simp [inString inside, inside, notBoth inside]
  · have notString : ¬ InsideToken .string text start := fun other => notBoth other inside
    simp [inAtom inside, inside, notString]

/-- The quote on the first line belongs to a comment, so it opens no string over the second. -/
theorem continued_line_isComment_behind_quote :
    let text := ";; \"\n;; b"
    let edit : TextEdit := ⟨9, 0, [lineFeed]⟩
    ((Source.ofString text).extendLineBreak? {} edit).map TextEdit.text =
        some (encode "\n;; ") ∧
      (Source.ofString text).lineStart 9 = 5 ∧
      (Source.ofString text).classAt? 5 = some .comment ∧
      ¬ InsideToken .string text 5 ∧ ¬ InsideToken .atom text 5 := by
  intro text edit
  have continued : ((Source.ofString text).extendLineBreak? {} edit).map TextEdit.text =
      some (encode "\n;; ") := by
    decide +kernel
  have isStart : (Source.ofString text).lineStart 9 = 5 := by decide +kernel
  have isComment : (Source.ofString text).classAt? 5 = some .comment := by decide +kernel
  have facts := continued_line_isComment_iff (by decide +kernel)
    (continued.trans (by decide +kernel : some (encode "\n;; ") = _))
  simp only [edit, isStart] at facts
  exact ⟨continued, isStart, isComment, facts.1.mp isComment⟩

/-- Inside a string and between the bars of a symbol, a line that starts like a comment is
continued as one. -/
theorem continued_line_in_string_or_bars :
    let style : Style := {}
    let edit : TextEdit := ⟨7, 0, [lineFeed]⟩
    let continued := { edit with text := edit.text ++ style.config.commentMark ++ [space] }
    let inString := Source.ofString "\"a\n;; b"
    let inBars := Source.ofString "|a\n;; b"
    style.config.continueComments = true ∧ style.config.commentMark.head? = some semicolon ∧
      (edit.offset ≤ inString.length ∧ inString.extendLineBreak? style edit = some continued ∧
        inString.classAt? (inString.lineStart edit.offset) ≠ some .comment) ∧
      edit.offset ≤ inBars.length ∧ inBars.extendLineBreak? style edit = some continued ∧
        inBars.classAt? (inBars.lineStart edit.offset) ≠ some .comment := by
  decide +kernel

end SchemeLayout
