/-!
The lexical class of one byte of source text.

A class table holds one class per byte.  Every navigation step reads the table
alone, so that both directions agree on where strings and comments lie.
-/

set_option autoImplicit false

namespace SchemeLayout

inductive ByteClass where
  /-- Blanks and line breaks outside strings and comments. -/
  | space
  /-- A byte of a line comment or of a block comment, its marks included. -/
  | comment
  | opening
  | closing
  /-- A quoting mark in front of a form. -/
  | prefixMark
  /-- The double quote that opens a string. -/
  | stringOpen
  /-- The rest of a string, its closing quote included. -/
  | stringRest
  | atom
  deriving DecidableEq, Repr, Inhabited

namespace ByteClass

/-- Spaces and comments, which no form contains. -/
def isTrivia : ByteClass → Bool
  | space | comment => true
  | _ => false

/-- What may stand between the first prefix mark of a form and its body. -/
def isLead : ByteClass → Bool
  | prefixMark => true
  | other => other.isTrivia

/-- The class read from the other side: brackets change direction. -/
def flip : ByteClass → ByteClass
  | opening => closing
  | closing => opening
  | other => other

@[simp] theorem flip_flip (cls : ByteClass) : cls.flip.flip = cls := by
  cases cls <;> rfl

@[simp] theorem isTrivia_flip (cls : ByteClass) : cls.flip.isTrivia = cls.isTrivia := by
  cases cls <;> rfl

theorem isLead_iff (cls : ByteClass) :
    cls.isLead = true ↔ cls = prefixMark ∨ cls.isTrivia = true := by
  cases cls <;> simp [isLead, isTrivia]

end ByteClass

end SchemeLayout
