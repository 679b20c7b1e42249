import SchemeLayout.Layout.Indentation

/-!
Edits, and the edit that a typed line break turns into.

An insertion that ends with a line break is extended: on a comment line by the
mark of the next comment line, elsewhere by the indentation of the new line.
-/

set_option autoImplicit false

namespace SchemeLayout

/-- Replace `length` bytes at `offset` by `text`. -/
structure TextEdit where
  offset : Nat
  length : Nat
  text : Bytes
  deriving DecidableEq, Repr

namespace TextEdit

def apply (edit : TextEdit) (bytes : Bytes) : Bytes :=
  bytes.take edit.offset ++ (edit.text ++ bytes.drop (edit.offset + edit.length))

def breaksLine (edit : TextEdit) : Bool :=
  edit.length == 0 &&
    (edit.text.getLast? == some lineFeed || edit.text.getLast? == some carriageReturn)

end TextEdit

/-- Whether a line break on this line starts another comment line.  It does not
when the line holds nothing but the mark and one space. -/
def continuesComment (config : Config) (line : Bytes) : Bool :=
  config.continueComments && !config.commentMark.isEmpty &&
    config.commentMark.isPrefixOf line &&
    line.drop config.commentMark.length != [space]

namespace Source

/-- The edit to make in place of a typed one, unless that is not a line break. -/
def extendLineBreak? (source : Source) (style : Style) (edit : TextEdit) : Option TextEdit :=
  if !edit.breaksLine then none
  else if continuesComment style.config (source.lineBytes edit.offset) then
    some { edit with text := edit.text ++ style.config.commentMark ++ [space] }
  else
    some {
      offset := edit.offset
      length := source.indentRun edit.offset
      text := edit.text ++ spaces (source.indentation style edit.offset) }

end Source

end SchemeLayout
