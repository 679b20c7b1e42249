import SchemeLayout.Lexer.ByteClass
import SchemeLayout.Lexer.ByteRole
import SchemeLayout.Text.Utf8

/-!
Lexical classification of Scheme source text.

The lexer is a Mealy machine: it reads the bytes from left to right, keeps one
`LexState`, and gives each byte its class.  It looks one byte ahead, and only
after a hash between tokens.  No text is refused: strings and block comments
without an end, and bar sections without a closing bar, run to the end.
-/

set_option autoImplicit false

namespace SchemeLayout

/-- Half of a block comment mark: a hash that a bar would complete to an opening
mark, or a bar that a hash would complete to a closing mark. -/
inductive HalfMark where
  | hash
  | bar
  deriving DecidableEq, Repr

/-- Where the lexer stands between two bytes. -/
inductive LexState where
  | between
  /-- After a comma, which an at sign may extend. -/
  | afterComma
  | lineComment
  /-- Inside `depth` open block comments, with half a mark pending. -/
  | blockComment (depth : Nat) (pending : Option HalfMark)
  | string
  /-- After a backslash in a string. -/
  | stringEscape
  | atom
  /-- After the hash that starts an atom. -/
  | atomHash
  /-- In front of the character that a character literal names. -/
  | charLiteral
  /-- Inside a bar section of an atom. -/
  | atomBar
  deriving DecidableEq, Repr, Inhabited

namespace LexState

def stepBetween (role : ByteRole) (next : Option ByteRole) : ByteClass × LexState :=
  match role with
  | .blank | .lineBreak => (.space, between)
  | .semicolon => (.comment, lineComment)
  | .doubleQuote => (.stringOpen, string)
  | .opening => (.opening, between)
  | .closing => (.closing, between)
  | .tick => (.prefixMark, between)
  | .comma => (.prefixMark, afterComma)
  | .hash =>
      match next with
      | some .bar => (.comment, blockComment 0 (some .hash))
      | some .opening | some .tick | some .comma => (.prefixMark, between)
      | _ => (.atom, atomHash)
  | .bar => (.atom, atomBar)
  | .atSign | .backslash | .ordinary => (.atom, atom)

def stepAtom (role : ByteRole) (next : Option ByteRole) : ByteClass × LexState :=
  if role.endsAtom then stepBetween role next
  else if role = .bar then (.atom, atomBar)
  else (.atom, atom)

def stepBlock (depth : Nat) (pending : Option HalfMark) (role : ByteRole) : LexState :=
  match pending, role with
  | some .hash, .bar => blockComment (depth + 1) none
  | some .bar, .hash => if depth ≤ 1 then between else blockComment (depth - 1) none
  | _, .hash => blockComment depth (some .hash)
  | _, .bar => blockComment depth (some .bar)
  | _, _ => blockComment depth none

/-- Read one byte, given the role of the byte after it. -/
def step (state : LexState) (role : ByteRole) (next : Option ByteRole) :
    ByteClass × LexState :=
  match state with
  | between => stepBetween role next
  | afterComma => if role = .atSign then (.prefixMark, between) else stepBetween role next
  | lineComment =>
      if role = .lineBreak then stepBetween role next else (.comment, lineComment)
  | blockComment depth pending => (.comment, stepBlock depth pending role)
  | string =>
      match role with
      | .doubleQuote => (.stringRest, between)
      | .backslash => (.stringRest, stringEscape)
      | _ => (.stringRest, string)
  | stringEscape => (.stringRest, string)
  | atom => stepAtom role next
  | atomHash => if role = .backslash then (.atom, charLiteral) else stepAtom role next
  | charLiteral => (.atom, atom)
  | atomBar => if role = .bar then (.atom, atom) else (.atom, atomBar)

end LexState

/-- Classes of the bytes with these roles, read from `state` on. -/
def classifyFrom (state : LexState) : List ByteRole → List ByteClass
  | [] => []
  | role :: rest =>
      let reading := state.step role rest.head?
      reading.1 :: classifyFrom reading.2 rest

def classify (bytes : Bytes) : List ByteClass := classifyFrom .between (bytes.map .of)

@[simp] theorem length_classifyFrom (state : LexState) (roles : List ByteRole) :
    (classifyFrom state roles).length = roles.length := by
  induction roles generalizing state with
  | nil => rfl
  | cons role rest inductionHypothesis => simp [classifyFrom, inductionHypothesis]

@[simp] theorem length_classify (bytes : Bytes) :
    (classify bytes).length = bytes.length := by
  simp [classify]

@[simp] theorem classify_nil : classify [] = [] := rfl

end SchemeLayout
