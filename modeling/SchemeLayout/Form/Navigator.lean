import SchemeLayout.Source
import SchemeLayout.Form.Basic

/-!
Moves through the forms of a snapshot.

A move asks for a form near an offset: the next one, the last one, the list
around it, or the inside of the list that comes next.  A `Navigator` remembers
the span of the form found last; a move that finds nothing leaves it alone.
-/

set_option autoImplicit false

namespace SchemeLayout

inductive FormKind where
  /-- An identifier without prefix marks. -/
  | symbol
  | list
  | string
  /-- Any other leaf: numbers, booleans, characters, quoted leaves. -/
  | atom
  deriving DecidableEq, Repr

def FormKind.name : FormKind → String
  | symbol => "Symbol"
  | list => "List"
  | string => "String"
  | atom => "Atom"

structure FormSpan where
  start : Nat
  stop : Nat
  kind : FormKind
  deriving DecidableEq, Repr

/-- A request to enter a form that has no inside. -/
inductive NavError where
  | notAList (offset : Nat) (found : FormKind)
  deriving DecidableEq, Repr

def NavError.message : NavError → String
  | notAList offset found =>
      "cannot descend at offset " ++ offset.repr ++ ": form is " ++ found.name ++ ", not a list"

def startsWithDigit : List Char → Bool
  | char :: _ => char.isDigit
  | [] => false

/-- Whether a text starts like a number: with a digit, behind a sign, a point or
both. -/
def looksNumeric : List Char → Bool
  | '+' :: '.' :: rest | '-' :: '.' :: rest => startsWithDigit rest
  | '+' :: rest | '-' :: rest | '.' :: rest => startsWithDigit rest
  | chars => startsWithDigit chars

/-- The kind of a leaf without prefix marks.  What starts with a hash or like a
number is no symbol, and neither is the empty text. -/
def atomKind : List Char → FormKind
  | [] | '#' :: _ => .atom
  | chars => if looksNumeric chars then .atom else .symbol

namespace Source

def spanOf (source : Source) (form : Form) : FormSpan :=
  let kind :=
    match form.shape with
    | .list => FormKind.list
    | .string => .string
    | .atom =>
        if form.start = form.body then atomKind (source.slice form.body form.stop).toList
        else .atom
    | .danglingPrefix => .atom
  ⟨form.start, form.stop, kind⟩

@[simp] theorem start_spanOf (source : Source) (form : Form) :
    (source.spanOf form).start = form.start := rfl

@[simp] theorem stop_spanOf (source : Source) (form : Form) :
    (source.spanOf form).stop = form.stop := rfl

def formAfter? (source : Source) (offset : Nat) : Option FormSpan :=
  (formForward source.classes offset).map source.spanOf

def formBefore? (source : Source) (offset : Nat) : Option FormSpan :=
  (formBackward source.classes offset).map source.spanOf

def enclosing? (source : Source) (offset : Nat) : Option FormSpan :=
  (openBackward source.classes offset 0).map fun start =>
    ⟨start, (closeForward source.classes (start + 1) 0).getD source.length, .list⟩

/-- The inside of the list that comes next after an offset, if a form does. -/
def interior? (source : Source) (offset : Nat) : Except NavError (Option FormSpan) :=
  match formForward source.classes offset with
  | none => .ok none
  | some form =>
      if form.shape = .list then
        let inner := form.body + 1
        let close := (closeForward source.classes inner 0).map (· - 1)
        .ok (some ⟨inner, close.getD source.length, .list⟩)
      else
        .error (.notAList form.start (source.spanOf form).kind)

end Source

inductive Move where
  | forward
  | backward
  | up
  | down
  deriving DecidableEq, Repr

structure Navigator where
  source : Source
  span : FormSpan := ⟨0, 0, .atom⟩

namespace Navigator

def locate (source : Source) (offset : Nat) : Move → Except NavError (Option FormSpan)
  | .forward => .ok (source.formAfter? offset)
  | .backward => .ok (source.formBefore? offset)
  | .up => .ok (source.enclosing? offset)
  | .down => source.interior? offset

/-- Take over what a move has located.  The answer tells whether a form was found. -/
def settle (navigator : Navigator) :
    Except NavError (Option FormSpan) → Except NavError Bool × Navigator
  | .ok (some span) => (.ok true, { navigator with span := span })
  | .ok none => (.ok false, navigator)
  | .error problem => (.error problem, navigator)

/-- Make a move from an offset. -/
def move (navigator : Navigator) (direction : Move) (offset : Nat) :
    Except NavError Bool × Navigator :=
  navigator.settle (locate navigator.source offset direction)

def text (navigator : Navigator) : String :=
  navigator.source.slice navigator.span.start navigator.span.stop

@[simp] theorem source_move (navigator : Navigator) (direction : Move) (offset : Nat) :
    (navigator.move direction offset).2.source = navigator.source := by
  unfold move settle
  split <;> rfl

end Navigator

end SchemeLayout
