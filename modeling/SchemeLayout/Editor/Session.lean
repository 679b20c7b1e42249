import SchemeLayout.Layout.Reindent
import SchemeLayout.Editor.TextEdit

/-!
An editing session: a text with a caret.

Every typed text passes through the line break rule before it is applied, and
the caret follows the text that was inserted.
-/

set_option autoImplicit false

namespace SchemeLayout

structure Session where
  text : Bytes
  caret : Nat
  deriving DecidableEq, Repr

inductive Action where
  | moveTo (offset : Nat)
  /-- Type a text over the `length` bytes after the caret. -/
  | type (text : Bytes) (length : Nat)
  | reindentLines (first last : Nat)
  | reindentAll
  deriving DecidableEq, Repr

namespace Session

def start (text : Bytes) : Session := ⟨text, text.length⟩

/-- Replace the text, and keep the caret inside it. -/
def setText (session : Session) (text : Bytes) : Session :=
  ⟨text, min session.caret text.length⟩

def typeText (session : Session) (style : Style) (text : Bytes) (length : Nat) : Session :=
  let typed : TextEdit := ⟨session.caret, length, text⟩
  let edit := ((Source.ofBytes session.text).extendLineBreak? style typed).getD typed
  ⟨edit.apply session.text, edit.offset + edit.text.length⟩

def perform (style : Style) (session : Session) : Action → Session
  | .moveTo offset => { session with caret := offset }
  | .type text length => session.typeText style text length
  | .reindentLines first last => session.setText (reindent style session.text first last)
  | .reindentAll => session.setText (SchemeLayout.reindentAll style session.text)

def indentation (session : Session) (style : Style) : Nat :=
  (Source.ofBytes session.text).indentation style session.caret

end Session

end SchemeLayout
