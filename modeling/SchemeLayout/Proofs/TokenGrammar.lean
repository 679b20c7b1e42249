import SchemeLayout.Lexer.ByteClass
import SchemeLayout.Proofs.Characters

/-!
The tokens of a text.

A text is split from left to right into tokens.  Each token is described by its
characters and by what follows it, so that a token ends where the rules say and
nowhere else.  Strings, block comments and bar sections that are never closed run
to the end, and every text can be split.  Two atoms never touch: an atom ends in
front of a character that no atom starts with.
-/

set_option autoImplicit false

namespace SchemeLayout

/-! ## The grammar -/

def isWhiteChar (char : Char) : Bool := char ∈ [' ', '\t', '\n', '\r', '\x0c']

def isBreakChar (char : Char) : Bool := char ∈ ['\n', '\r']

/-- White space, brackets, double quotes and semicolons end an atom. -/
def isDelimiterChar (char : Char) : Bool :=
  isWhiteChar char || char ∈ ['(', ')', '[', ']', '"', ';']

/-- Quote and quasiquote. -/
def isQuoteChar (char : Char) : Bool := char ∈ ['\'', '\x60']

/-- A hash in front of these is a quoting mark. -/
def isQuotedChar (char : Char) : Bool := char ∈ ['(', '['] || isQuoteChar char || char = ','

/-- What follows the opening quote of a string, in front of `rest`.  A backslash escapes
the next character, whatever that is. -/
inductive StringBody : List Char → List Char → Prop where
  | closed {rest : List Char} : StringBody ['"'] rest
  | ended : StringBody [] []
  | cutEscape : StringBody ['\\'] []
  | escape {char : Char} {body rest : List Char} :
      StringBody body rest → StringBody ('\\' :: char :: body) rest
  | plain {char : Char} {body rest : List Char} :
      char ≠ '"' → char ≠ '\\' → StringBody body rest → StringBody (char :: body) rest

/-- What follows an opening mark inside `depth` outer block comments, in front of `rest`.
Marks are read from left to right and do not overlap. -/
inductive CommentBody : Nat → List Char → List Char → Prop where
  | closed {rest : List Char} : CommentBody 0 ['|', '#'] rest
  | ended {depth : Nat} : CommentBody depth [] []
  | opens {depth : Nat} {body rest : List Char} :
      CommentBody (depth + 1) body rest → CommentBody depth ('#' :: '|' :: body) rest
  | closes {depth : Nat} {body rest : List Char} :
      CommentBody depth body rest → CommentBody (depth + 1) ('|' :: '#' :: body) rest
  | plain {depth : Nat} {char : Char} {body rest : List Char} :
      (char = '#' → body.head? ≠ some '|') → (char = '|' → body.head? ≠ some '#') →
      CommentBody depth body rest → CommentBody depth (char :: body) rest

/-- The rest of an atom, in front of `rest`: up to the first delimiter outside bar
sections. -/
inductive AtomBody : List Char → List Char → Prop where
  | ended {rest : List Char} :
      (∀ char ∈ rest.head?, isDelimiterChar char = true) → AtomBody [] rest
  | plain {char : Char} {body rest : List Char} :
      isDelimiterChar char = false → char ≠ '|' → AtomBody body rest →
      AtomBody (char :: body) rest
  | bars {inner body rest : List Char} :
      '|' ∉ inner → AtomBody body rest → AtomBody ('|' :: (inner ++ '|' :: body)) rest
  | cutBars {inner : List Char} : '|' ∉ inner → AtomBody ('|' :: inner) []

inductive TokenKind where
  | space
  | comment
  | string
  | opening
  | closing
  /-- A quoting mark. -/
  | mark
  | atom
  deriving DecidableEq, Repr

/-- These characters are a token if `rest` follows them. -/
inductive IsToken : TokenKind → List Char → List Char → Prop where
  | space {char : Char} {rest : List Char} :
      isWhiteChar char = true → IsToken .space [char] rest
  | lineComment {body rest : List Char} :
      (∀ char ∈ body, isBreakChar char = false) → (∀ char ∈ rest.head?, isBreakChar char = true) →
      IsToken .comment (';' :: body) rest
  | blockComment {body rest : List Char} :
      CommentBody 0 body rest → IsToken .comment ('#' :: '|' :: body) rest
  | string {body rest : List Char} : StringBody body rest → IsToken .string ('"' :: body) rest
  | opening {char : Char} {rest : List Char} :
      char = '(' ∨ char = '[' → IsToken .opening [char] rest
  | closing {char : Char} {rest : List Char} :
      char = ')' ∨ char = ']' → IsToken .closing [char] rest
  | quote {char : Char} {rest : List Char} : isQuoteChar char = true → IsToken .mark [char] rest
  | comma {rest : List Char} : rest.head? ≠ some '@' → IsToken .mark [','] rest
  | commaAt {rest : List Char} : IsToken .mark [',', '@'] rest
  | hash {char : Char} {rest : List Char} :
      isQuotedChar char = true → IsToken .mark ['#'] (char :: rest)
  /-- A character literal takes the character it names, whatever that is. -/
  | character {char : Char} {body rest : List Char} :
      AtomBody body rest → IsToken .atom ('#' :: '\\' :: char :: body) rest
  | cutCharacter : IsToken .atom ['#', '\\'] []
  /-- Any other atom: nothing above starts like it. -/
  | atom {first : Char} {body rest : List Char} :
      isDelimiterChar first = false → isQuoteChar first = false → first ≠ ',' →
      (first = '#' → ∀ next ∈ (body ++ rest).head?,
        isQuotedChar next = false ∧ next ≠ '|' ∧ next ≠ '\\') →
      AtomBody (first :: body) rest → IsToken .atom (first :: body) rest

structure Token where
  kind : TokenKind
  chars : List Char
  deriving DecidableEq, Repr

/-- A text, split into its tokens. -/
inductive Tokenizes : List Char → List Token → Prop where
  | nil : Tokenizes [] []
  | cons {kind : TokenKind} {chars rest : List Char} {tokens : List Token} :
      IsToken kind chars rest → Tokenizes rest tokens →
      Tokenizes (chars ++ rest) (⟨kind, chars⟩ :: tokens)

/-- The class of the bytes of a token; in a string, of those behind the opening quote. -/
def TokenKind.byteClass : TokenKind → ByteClass
  | space => .space
  | comment => .comment
  | string => .stringRest
  | opening => .opening
  | closing => .closing
  | mark => .prefixMark
  | atom => .atom

/-- The classes of the bytes of a token. -/
def Token.classes (token : Token) : List ByteClass :=
  if token.kind = .string then
    .stringOpen :: List.replicate (byteLength token.chars - 1) .stringRest
  else
    List.replicate (byteLength token.chars) token.kind.byteClass

/-! ## Every text can be split -/

theorem exists_stringBody : (chars : List Char) →
    ∃ body rest, chars = body ++ rest ∧ StringBody body rest
  | [] => ⟨[], [], rfl, .ended⟩
  | first :: more => by
      by_cases isQuote : first = '"'
      · exact ⟨['"'], more, by rw [isQuote]; rfl, .closed⟩
      · by_cases isEscape : first = '\\'
        · subst isEscape
          match more with
          | [] => exact ⟨['\\'], [], rfl, .cutEscape⟩
          | char :: more =>
              obtain ⟨body, rest, rfl, isBody⟩ := exists_stringBody more
              exact ⟨'\\' :: char :: body, rest, rfl, .escape isBody⟩
        · obtain ⟨body, rest, rfl, isBody⟩ := exists_stringBody more
          exact ⟨first :: body, rest, rfl, .plain isQuote isEscape isBody⟩

theorem exists_commentBody (depth : Nat) : (chars : List Char) →
    ∃ body rest, chars = body ++ rest ∧ CommentBody depth body rest
  | [] => ⟨[], [], rfl, .ended⟩
  | [char] => ⟨[char], [], rfl, .plain (by simp) (by simp) .ended⟩
  | first :: second :: more => by
      by_cases isOpening : first = '#' ∧ second = '|'
      · obtain ⟨rfl, rfl⟩ := isOpening
        obtain ⟨body, rest, rfl, isBody⟩ := exists_commentBody (depth + 1) more
        exact ⟨'#' :: '|' :: body, rest, rfl, .opens isBody⟩
      · by_cases isClosing : first = '|' ∧ second = '#'
        · obtain ⟨rfl, rfl⟩ := isClosing
          cases depth with
          | zero => exact ⟨['|', '#'], more, rfl, .closed⟩
          | succ depth =>
              obtain ⟨body, rest, rfl, isBody⟩ := exists_commentBody depth more
              exact ⟨'|' :: '#' :: body, rest, rfl, .closes isBody⟩
        · obtain ⟨body, rest, split, isBody⟩ := exists_commentBody depth (second :: more)
          have isNext : body.head? = none ∨ body.head? = some second := by
            cases body with
            | nil => exact .inl rfl
            | cons char body =>
                rw [List.cons_append, List.cons.injEq] at split
                exact .inr (congrArg some split.1.symm)
          refine ⟨first :: body, rest, by rw [split]; rfl, .plain ?_ ?_ isBody⟩
          · rintro rfl isBar
            rcases isNext with none | isNext <;> simp_all
          · rintro rfl isHash
            rcases isNext with none | isNext <;> simp_all

/-- A bar section, and what follows it. -/
theorem exists_bar (chars : List Char) :
    '|' ∉ chars ∨ ∃ inner more, chars = inner ++ '|' :: more ∧ '|' ∉ inner := by
  by_cases isIn : '|' ∈ chars
  · obtain ⟨inner, more, split, first⟩ := List.eq_append_cons_of_mem isIn
    exact .inr ⟨inner, more, split, first⟩
  · exact .inl isIn

theorem exists_atomBody (chars : List Char) :
    ∃ body rest, chars = body ++ rest ∧ AtomBody body rest := by
  induction length : chars.length using Nat.strongRecOn generalizing chars with
  | _ bound inductionHypothesis =>
      cases chars with
      | nil => exact ⟨[], [], rfl, .ended (by simp)⟩
      | cons first more =>
          rw [List.length_cons] at length
          cases isEnd : isDelimiterChar first with
          | true => exact ⟨[], first :: more, rfl, .ended (by simpa using isEnd)⟩
          | false =>
              by_cases isBar : first = '|'
              · subst isBar
                rcases exists_bar more with unclosed | ⟨inner, later, rfl, inside⟩
                · exact ⟨'|' :: more, [], by simp, .cutBars unclosed⟩
                · have shorter : later.length < bound := by
                    rw [← length]
                    simp
                    omega
                  obtain ⟨body, rest, rfl, isBody⟩ := inductionHypothesis _ shorter later rfl
                  exact ⟨'|' :: (inner ++ '|' :: body), rest, by simp, .bars inside isBody⟩
              · obtain ⟨body, rest, rfl, isBody⟩ := inductionHypothesis _ (by omega) more rfl
                exact ⟨first :: body, rest, rfl, .plain isEnd isBar isBody⟩

theorem exists_atom {first : Char} {more : List Char} (notDelimiter : isDelimiterChar first = false)
    (notQuote : isQuoteChar first = false) (notComma : first ≠ ',')
    (behindHash : first = '#' → ∀ next ∈ more.head?,
      isQuotedChar next = false ∧ next ≠ '|' ∧ next ≠ '\\') :
    ∃ chars rest, first :: more = chars ++ rest ∧ IsToken .atom chars rest := by
  obtain ⟨body, rest, split, isBody⟩ := exists_atomBody (first :: more)
  cases body with
  | nil =>
      rw [List.nil_append] at split
      subst split
      cases isBody with
      | ended isEnd =>
          rw [isEnd first rfl] at notDelimiter
          contradiction
  | cons head body =>
      obtain ⟨rfl, rfl⟩ := List.cons.inj split
      exact ⟨first :: body, rest, rfl, .atom notDelimiter notQuote notComma behindHash isBody⟩

theorem exists_hash (more : List Char) :
    ∃ kind chars rest, '#' :: more = chars ++ rest ∧ IsToken kind chars rest := by
  cases more with
  | nil => exact ⟨.atom, exists_atom rfl rfl (by decide) (by simp)⟩
  | cons next more =>
      by_cases isBar : next = '|'
      · obtain ⟨body, rest, rfl, isBody⟩ := exists_commentBody 0 more
        exact ⟨.comment, '#' :: '|' :: body, rest, by rw [isBar]; rfl, .blockComment isBody⟩
      · by_cases isEscape : next = '\\'
        · subst isEscape
          cases more with
          | nil => exact ⟨.atom, ['#', '\\'], [], rfl, .cutCharacter⟩
          | cons char more =>
              obtain ⟨body, rest, rfl, isBody⟩ := exists_atomBody more
              exact ⟨.atom, '#' :: '\\' :: char :: body, rest, rfl, .character isBody⟩
        · cases isQuoted : isQuotedChar next with
          | true => exact ⟨.mark, ['#'], next :: more, rfl, .hash isQuoted⟩
          | false =>
              refine ⟨.atom, exists_atom rfl rfl (by decide) ?_⟩
              rintro - char ⟨⟩
              exact ⟨isQuoted, isBar, isEscape⟩

theorem exists_lineComment (more : List Char) :
    ∃ kind chars rest, ';' :: more = chars ++ rest ∧ IsToken kind chars rest := by
  have split := List.takeWhile_append_dropWhile (p := fun char => !isBreakChar char) (l := more)
  refine ⟨.comment, ';' :: more.takeWhile (!isBreakChar ·), more.dropWhile (!isBreakChar ·),
    by rw [List.cons_append, split], .lineComment ?_ ?_⟩
  · intro char member
    simpa using List.all_eq_true.mp List.all_takeWhile char member
  · intro char isNext
    have stops := List.head?_dropWhile_not (fun char => !isBreakChar char) more
    rw [isNext] at stops
    simpa using stops

theorem exists_comma (more : List Char) :
    ∃ kind chars rest, ',' :: more = chars ++ rest ∧ IsToken kind chars rest := by
  by_cases isAt : more.head? = some '@'
  · obtain ⟨rest, rfl⟩ := List.head?_eq_some_iff.mp isAt
    exact ⟨.mark, [',', '@'], rest, rfl, .commaAt⟩
  · exact ⟨.mark, [','], more, rfl, .comma isAt⟩

/-- Every text starts with a token. -/
theorem exists_isToken (first : Char) (more : List Char) :
    ∃ kind chars rest, first :: more = chars ++ rest ∧ IsToken kind chars rest := by
  cases isDelimiter : isDelimiterChar first with
  | true =>
      cases isWhite : isWhiteChar first with
      | true => exact ⟨.space, [first], more, rfl, .space isWhite⟩
      | false =>
          simp only [isDelimiterChar, isWhite, Bool.false_or, decide_eq_true_eq, List.mem_cons,
            List.not_mem_nil, or_false] at isDelimiter
          rcases isDelimiter with rfl | rfl | rfl | rfl | rfl | rfl
          · exact ⟨.opening, ['('], more, rfl, .opening (.inl rfl)⟩
          · exact ⟨.closing, [')'], more, rfl, .closing (.inl rfl)⟩
          · exact ⟨.opening, ['['], more, rfl, .opening (.inr rfl)⟩
          · exact ⟨.closing, [']'], more, rfl, .closing (.inr rfl)⟩
          · obtain ⟨body, rest, rfl, isBody⟩ := exists_stringBody more
            exact ⟨.string, '"' :: body, rest, rfl, .string isBody⟩
          · exact exists_lineComment more
  | false =>
      cases isQuote : isQuoteChar first with
      | true => exact ⟨.mark, [first], more, rfl, .quote isQuote⟩
      | false =>
          by_cases isComma : first = ','
          · rw [isComma]
            exact exists_comma more
          · by_cases isHash : first = '#'
            · rw [isHash]
              exact exists_hash more
            · exact ⟨.atom, exists_atom isDelimiter isQuote isComma (absurd · isHash)⟩

theorem IsToken.ne_nil {kind : TokenKind} {chars rest : List Char}
    (isToken : IsToken kind chars rest) : chars ≠ [] := by
  cases isToken <;> simp

/-- Every text can be split into tokens. -/
theorem exists_tokenizes (chars : List Char) : ∃ tokens, Tokenizes chars tokens := by
  induction length : chars.length using Nat.strongRecOn generalizing chars with
  | _ bound inductionHypothesis =>
      cases chars with
      | nil => exact ⟨[], .nil⟩
      | cons first more =>
          obtain ⟨kind, token, rest, split, isToken⟩ := exists_isToken first more
          have positive := List.length_pos_iff.mpr isToken.ne_nil
          rw [split, List.length_append] at length
          obtain ⟨tokens, splits⟩ := inductionHypothesis rest.length (by omega) rest rfl
          rw [split]
          exact ⟨⟨kind, token⟩ :: tokens, .cons isToken splits⟩

/-! ## Atoms do not touch -/

theorem AtomBody.delimited {body rest : List Char} (isBody : AtomBody body rest) :
    ∀ char ∈ rest.head?, isDelimiterChar char = true := by
  induction isBody with
  | ended isEnd => exact isEnd
  | plain _ _ _ inductionHypothesis => exact inductionHypothesis
  | bars _ _ inductionHypothesis => exact inductionHypothesis
  | cutBars => simp

namespace IsToken

variable {kind : TokenKind} {chars rest : List Char}

/-- An atom is followed by a delimiter, or by nothing. -/
theorem delimited (isToken : IsToken .atom chars rest) :
    ∀ char ∈ rest.head?, isDelimiterChar char = true := by
  cases isToken with
  | character isBody => exact isBody.delimited
  | cutCharacter => simp
  | atom _ _ _ _ isBody => exact isBody.delimited

/-- Neither an atom nor a quoting mark starts with a delimiter. -/
theorem not_isDelimiterChar (isToken : IsToken kind chars rest)
    (isKind : kind = .atom ∨ kind = .mark) :
    ∀ char ∈ chars.head?, isDelimiterChar char = false := by
  cases isToken with
  | space | lineComment | blockComment | string | opening | closing => simp at isKind
  | quote isQuote =>
      rintro char ⟨⟩
      simp only [isQuoteChar, decide_eq_true_eq, List.mem_cons, List.not_mem_nil,
        or_false] at isQuote
      rcases isQuote with rfl | rfl <;> rfl
  | comma | commaAt | hash | character | cutCharacter =>
      rintro char ⟨⟩
      rfl
  | atom notDelimiter =>
      rintro char ⟨⟩
      exact notDelimiter

end IsToken

namespace Token

variable {token : Token}

theorem mem_classes_iff (notEmpty : token.chars ≠ []) :
    .atom ∈ token.classes ↔ token.kind = .atom := by
  have positive := byteLength_pos notEmpty
  unfold classes
  split
  next isString => simp [isString]
  next =>
    rw [List.mem_replicate]
    cases token.kind <;> simp [TokenKind.byteClass, Nat.pos_iff_ne_zero.mp positive]

theorem classes_ne_nil (notEmpty : token.chars ≠ []) : token.classes ≠ [] := by
  have positive := byteLength_pos notEmpty
  unfold classes
  split
  · simp
  · simp [Nat.pos_iff_ne_zero.mp positive]

end Token

namespace Tokenizes

variable {chars : List Char} {tokens : List Token}

theorem ne_nil (splits : Tokenizes chars tokens) : ∀ token ∈ tokens, token.chars ≠ [] := by
  induction splits with
  | nil => simp
  | cons isToken _ inductionHypothesis =>
      exact List.forall_mem_cons.mpr ⟨isToken.ne_nil, inductionHypothesis⟩

/-- Behind a delimiter neither an atom nor a quoting mark starts. -/
theorem kind_of_delimited (splits : Tokenizes chars tokens)
    (delimited : ∀ char ∈ chars.head?, isDelimiterChar char = true) :
    ∀ token ∈ tokens.head?, token.kind ≠ .atom ∧ token.kind ≠ .mark := by
  cases splits with
  | nil => simp
  | @cons kind chars rest tokens isToken _ =>
      rintro token ⟨⟩
      rw [← not_or]
      intro isKind
      obtain ⟨first, more, rfl⟩ := List.exists_cons_of_ne_nil isToken.ne_nil
      have isFirst := delimited first rfl
      rw [isToken.not_isDelimiterChar isKind first rfl] at isFirst
      contradiction

/-- A text is empty, or it starts with its first token. -/
theorem cases_token (splits : Tokenizes chars tokens) :
    chars = [] ∧ tokens = [] ∨
      ∃ kind token rest later, chars = token ++ rest ∧ tokens = ⟨kind, token⟩ :: later ∧
        IsToken kind token rest ∧ Tokenizes rest later := by
  cases splits with
  | nil => exact .inl ⟨rfl, rfl⟩
  | cons isToken later => exact .inr ⟨_, _, _, _, rfl, rfl, isToken, later⟩

theorem exists_of_append {before after : List Token}
    (splits : Tokenizes chars (before ++ after)) : ∃ rest, Tokenizes rest after := by
  induction before generalizing chars with
  | nil => exact ⟨chars, splits⟩
  | cons token before inductionHypothesis =>
      cases splits with
      | cons _ later => exact inductionHypothesis later

/-- The token behind an atom is no atom. -/
theorem kind_behind_atom {token : Token} {after : List Token}
    (splits : Tokenizes chars (token :: after)) (isAtom : token.kind = .atom) :
    ∀ next ∈ after.head?, next.kind ≠ .atom := by
  cases splits with
  | cons isToken later =>
      subst isAtom
      intro next isNext
      exact (later.kind_of_delimited isToken.delimited next isNext).1

theorem atom_not_mem_head? {after : List Token} (splits : Tokenizes chars after)
    (noAtom : ∀ next ∈ after.head?, next.kind ≠ .atom) :
    (after.flatMap Token.classes).head? ≠ some .atom := by
  cases after with
  | nil => simp
  | cons next after =>
      have notEmpty := splits.ne_nil next List.mem_cons_self
      intro isFirst
      rw [List.flatMap_cons, List.head?_append,
        Option.or_of_isSome (by simpa using Token.classes_ne_nil notEmpty)] at isFirst
      exact noAtom next rfl ((Token.mem_classes_iff notEmpty).mp (List.mem_of_head? isFirst))

/-- Every atom is a maximal run of bytes of its class. -/
theorem atom_maximal {before after : List Token} {token : Token}
    (splits : Tokenizes chars (before ++ token :: after)) (isAtom : token.kind = .atom) :
    (before.flatMap Token.classes).getLast? ≠ some .atom ∧
      (after.flatMap Token.classes).head? ≠ some .atom := by
  constructor
  · rcases List.eq_nil_or_concat before with rfl | ⟨front, last, isBefore⟩
    · simp
    · rw [List.concat_eq_append] at isBefore
      subst isBefore
      have notEmpty := splits.ne_nil last (by simp)
      rw [List.append_assoc] at splits
      obtain ⟨rest, later⟩ := splits.exists_of_append
      intro isLast
      rw [List.flatMap_append, List.flatMap_singleton, List.getLast?_append,
        Option.or_of_isSome (by simpa using Token.classes_ne_nil notEmpty)] at isLast
      have lastAtom := (Token.mem_classes_iff notEmpty).mp (List.mem_of_getLast? isLast)
      exact later.kind_behind_atom lastAtom token rfl isAtom
  · obtain ⟨rest, later⟩ := splits.exists_of_append
    have noAtom := later.kind_behind_atom isAtom
    cases later with
    | cons _ later => exact later.atom_not_mem_head? noAtom

end Tokenizes

end SchemeLayout
