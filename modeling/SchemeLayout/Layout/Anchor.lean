import SchemeLayout.Form.Navigator

/-!
What a new line is aligned with.

The anchor of an offset names the forms around it that decide on the
indentation: the last form before it, the list that encloses that form, and the
head of the list.
-/

set_option autoImplicit false

namespace SchemeLayout

inductive Anchor where
  /-- Nothing stands before the offset and no list encloses it. -/
  | bufferStart
  /-- The offset is the first position inside a list. -/
  | firstInList (opening : Nat)
  /-- A form stands before the offset, outside all lists. -/
  | topLevel (previous : Nat)
  /-- The enclosing list is headed by a symbol. -/
  | symbolHead (previous opening : Nat) (symbol : String)
  /-- The enclosing list is headed by another list. -/
  | listHead (head : Nat)
  /-- The enclosing list is headed by any other leaf. -/
  | leafHead (previous : Nat)
  deriving DecidableEq, Repr

namespace Source

def head? (source : Source) (opening : Nat) : Option FormSpan :=
  match source.interior? opening with
  | .ok (some inner) => source.formAfter? inner.start
  | .ok none | .error _ => none

def anchorInList (source : Source) (previous opening : Nat) : Anchor :=
  match source.head? opening with
  | none => .leafHead previous
  | some head =>
      match head.kind with
      | .symbol => .symbolHead previous opening (source.slice head.start head.stop)
      | .list => .listHead head.start
      | .string | .atom => .leafHead previous

def anchor (source : Source) (offset : Nat) : Anchor :=
  match source.formBefore? offset with
  | none =>
      match source.enclosing? offset with
      | none => .bufferStart
      | some list => .firstInList list.start
  | some previous =>
      match source.enclosing? previous.start with
      | none => .topLevel previous.start
      | some list => source.anchorInList previous.start list.start

end Source

end SchemeLayout
