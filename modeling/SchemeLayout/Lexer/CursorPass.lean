import SchemeLayout.Lexer.Cursor
import SchemeLayout.Lexer.ByteClass
import SchemeLayout.Lexer.ByteRole

/-!
Classification by a cursor, token by token.

The pass reads whole tokens and gives each byte of a token its class.  Every
read is checked, every repetition has to move on, and a block comment may not
close more often than it opens, so a run without `Fault` is a safe one.
-/

set_option autoImplicit false

namespace SchemeLayout

namespace Cursor

variable {bytes : Bytes}

/-- Skip a block comment of which `depth` opening marks have been read. -/
def skipBlock (depth : Nat) (cursor : Cursor bytes) : Except Fault (Cursor bytes) :=
  if _inside : bytes.length ≤ cursor.pos then
    .ok cursor
  else
    match cursor.current, cursor.peek with
    | .error fault, _ => .error fault
    | _, .error fault => .error fault
    | .ok byte, .ok next =>
        match ByteRole.of byte, ByteRole.of next with
        | .hash, .bar => (cursor.advanceBy 2).skipBlock (depth + 1)
        | .bar, .hash =>
            match depth with
            | 0 => .error (.unopened cursor.pos)
            | 1 => .ok (cursor.advanceBy 2)
            | depth + 2 => (cursor.advanceBy 2).skipBlock (depth + 1)
        | _, _ => cursor.advance.skipBlock depth
termination_by bytes.length - cursor.pos
decreasing_by all_goals simp only [advanceBy, advance]; omega

def skipString (cursor : Cursor bytes) : Except Fault (Cursor bytes) :=
  match cursor.seekStringMark with
  | .error fault => .error fault
  | .ok (mark, found) =>
      match ByteRole.of mark with
      | .doubleQuote => .ok found.advance
      | .backslash =>
          match found.advance.advanceChar with
          | .error fault => .error fault
          | .ok next =>
              if _moved : cursor.pos < next.pos ∧ cursor.pos < bytes.length then
                next.skipString
              else
                .error (.stalled cursor.pos)
      | _ => .ok found
termination_by bytes.length - cursor.pos

/-- Skip a byte of an atom, together with the bar section that it opens. -/
def skipAtomByte (byte : UInt8) (cursor : Cursor bytes) : Cursor bytes :=
  if ByteRole.of byte = .bar then
    (cursor.advance.eatWhile fun inner => ByteRole.of inner ≠ .bar).advanceBy 1
  else
    cursor.advanceBy 1

/-- Skip to the first byte outside bar sections that ends an atom. -/
def skipAtomRest (cursor : Cursor bytes) : Except Fault (Cursor bytes) :=
  if _inside : bytes.length ≤ cursor.pos then
    .ok cursor
  else
    match cursor.current with
    | .error fault => .error fault
    | .ok byte =>
        if (ByteRole.of byte).endsAtom then
          .ok cursor
        else if _moved : cursor.pos < (cursor.skipAtomByte byte).pos then
          (cursor.skipAtomByte byte).skipAtomRest
        else
          .error (.stalled cursor.pos)
termination_by bytes.length - cursor.pos

/-- Skip an atom.  A character literal takes the character it names, whatever
that is. -/
def skipAtom (cursor : Cursor bytes) : Except Fault (Cursor bytes) := do
  let byte ← cursor.current
  if ByteRole.of byte = .hash then
    let next ← cursor.peek
    if ByteRole.of next = .backslash then
      let named ← (cursor.advanceBy 2).advanceChar
      named.skipAtomRest
    else
      cursor.skipAtomRest
  else
    cursor.skipAtomRest

def fill (cls : ByteClass) (start stop : Cursor bytes) : List ByteClass :=
  List.replicate (stop.pos - start.pos) cls

/-- Read one token: the classes of its bytes and the cursor after it.  Quoting
marks count as such only where a token may start. -/
def token (tokenStart : Bool) (cursor : Cursor bytes) :
    Except Fault (List ByteClass × Cursor bytes) := do
  let whole (cls : ByteClass) (next : Cursor bytes) := (fill cls cursor next, next)
  let byte ← cursor.current
  match ByteRole.of byte with
  | .blank | .lineBreak => return whole .space cursor.advance
  | .semicolon => return whole .comment (← cursor.eatLine)
  | .doubleQuote =>
      let body := cursor.advance
      let next ← body.skipString
      return (fill .stringOpen cursor body ++ fill .stringRest body next, next)
  | .opening => return whole .opening cursor.advance
  | .closing => return whole .closing cursor.advance
  | .tick =>
      if tokenStart then
        return whole .prefixMark cursor.advance
      else
        return whole .atom (← cursor.skipAtom)
  | .comma =>
      if tokenStart then
        let next ← cursor.advance.current
        if ByteRole.of next = .atSign then
          return whole .prefixMark cursor.advance.advance
        else
          return whole .prefixMark cursor.advance
      else
        return whole .atom (← cursor.skipAtom)
  | .hash =>
      let next ← cursor.peek
      match ByteRole.of next, tokenStart with
      | .bar, _ => return whole .comment (← cursor.skipBlock 0)
      | .opening, true | .tick, true | .comma, true =>
          return whole .prefixMark cursor.advance
      | _, _ => return whole .atom (← cursor.skipAtom)
  | .atSign | .bar | .backslash | .ordinary => return whole .atom (← cursor.skipAtom)

/-- Classify from the cursor to the end, and tell where the pass ended. -/
def classifyFrom (tokenStart : Bool) (cursor : Cursor bytes) :
    Except Fault (List ByteClass × Cursor bytes) :=
  if _inside : bytes.length ≤ cursor.pos then
    .ok ([], cursor)
  else
    match cursor.token tokenStart with
    | .error fault => .error fault
    | .ok (classes, next) =>
        if _moved : cursor.pos < next.pos then
          match next.classifyFrom (classes.getLast? ≠ some .atom) with
          | .error fault => .error fault
          | .ok (rest, final) => .ok (classes ++ rest, final)
        else
          .error (.stalled cursor.pos)
termination_by bytes.length - cursor.pos

def classify (cursor : Cursor bytes) : Except Fault (List ByteClass) :=
  (cursor.classifyFrom true).map Prod.fst

end Cursor

end SchemeLayout
