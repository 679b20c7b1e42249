import SchemeLayout.Form.Bracket

/-!
Reading one form at the front of some classes.

The classes may be those after a position, or those before it, nearest first.
A form is a list, a string or an atom together with the prefix marks in front of
it; trivia may separate the marks from each other and from the body.  Prefix
marks with nothing to apply to are a dangling prefix.  A reading gives lengths
alone, so that what it leaves over can be read on.
-/

set_option autoImplicit false

namespace SchemeLayout

inductive Shape where
  | list
  | string
  | atom
  | danglingPrefix
  deriving DecidableEq, Repr

/-- The lengths of the parts of a form: the trivia passed on the way to it, the
prefix marks in front of its body, and the body.  The marks of a dangling prefix
are its body. -/
structure Reading where
  gap : Nat
  lead : Nat
  body : Nat
  shape : Shape
  deriving DecidableEq, Repr

def Reading.size (reading : Reading) : Nat := reading.gap + reading.lead + reading.body

/-- Length of the wanted classes at the front. -/
def runLength (wanted : ByteClass → Bool) : List ByteClass → Nat
  | [] => 0
  | cls :: rest => if wanted cls then runLength wanted rest + 1 else 0

/-- Length of the prefix marks and trivia at the front, up to the last of the marks. -/
def markLength : List ByteClass → Nat
  | [] => 0
  | .prefixMark :: rest => markLength rest + 1
  | cls :: rest =>
      if cls.isTrivia then
        match markLength rest with
        | 0 => 0
        | count + 1 => count + 2
      else 0

/-- Length and shape of the body at the front.  A list that is never closed runs to
the end. -/
def bodyForward : List ByteClass → Nat × Shape
  | .opening :: rest => ((closeWithin 0 rest).getD rest.length + 1, .list)
  | .stringOpen :: rest | .stringRest :: rest => (runLength (· == .stringRest) rest + 1, .string)
  | classes => (runLength (· == .atom) classes, .atom)

/-- Read the first form, if one comes before the end of the enclosing list. -/
def readForward (classes : List ByteClass) : Option Reading :=
  let gap := runLength ByteClass.isTrivia classes
  let rest := classes.drop gap
  let lead := runLength ByteClass.isLead rest
  let inner := rest.drop lead
  match inner.head? with
  | none | some .closing =>
      if lead = 0 then none else some ⟨gap, 0, markLength rest, .danglingPrefix⟩
  | some _ => some ⟨gap, lead, (bodyForward inner).1, (bodyForward inner).2⟩

/-- Length and shape of the body at the front of classes read backward.  A closing
bracket that closes nothing takes all that is before it. -/
def bodyBackward : List ByteClass → Nat × Shape
  | .closing :: rest => ((openWithin 0 rest).getD rest.length + 1, .list)
  | .stringOpen :: _ => (1, .string)
  | .stringRest :: rest =>
      let count := runLength (· == .stringRest) rest
      if (rest.drop count).head? = some .stringOpen then (count + 2, .string)
      else (count + 1, .string)
  | classes => (runLength (· == .atom) classes, .atom)

/-- Read the last form of classes read backward, if one comes after the start of the
enclosing list. -/
def readBackward (classes : List ByteClass) : Option Reading :=
  let gap := runLength ByteClass.isTrivia classes
  let rest := classes.drop gap
  match rest.head? with
  | none | some .opening | some .space | some .comment => none
  | some .prefixMark => some ⟨gap, 0, markLength rest, .danglingPrefix⟩
  | some _ =>
      let body := bodyBackward rest
      some ⟨gap, markLength (rest.drop body.1), body.1, body.2⟩

end SchemeLayout
