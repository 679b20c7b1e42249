import SchemeLayout.Text.Blank
import SchemeLayout.Text.Numeral

/-!
Indentation policies and their text form.

A policy says how the lines after the first of a form are indented.  Its text is
a name, for `binding` followed by a colon and a threshold.  `render` writes the
text and `parse` reads it; blanks around the parts are ignored.
-/

set_option autoImplicit false

namespace SchemeLayout

inductive Policy where
  /-- Align under the first argument on the line where the last sibling starts. -/
  | standard
  /-- A body under the head. -/
  | sequence
  /-- A definition, laid out like a body. -/
  | definition
  /-- A conditional, set in further than a body. -/
  | branch
  /-- A header laid out like a conditional, followed by a body.  The head symbol
  and the header together are `threshold` forms. -/
  | binding (threshold : UInt32)
  /-- Align with the last sibling. -/
  | verbatim
  deriving DecidableEq, Repr

instance : Inhabited Policy := ⟨.standard⟩

/-- Columns from the opening bracket to a body. -/
def bodyOffset : UInt32 := 2

/-- Columns from the opening bracket to the parts of a conditional. -/
def branchOffset : UInt32 := 4

/-- Text that is no policy, or no override. -/
inductive PolicyError where
  | unknownPolicy (name : String)
  | missingThreshold (name : String)
  | invalidThreshold (name value : String)
  | unexpectedThreshold (name : String)
  | malformedOverride (text : String)
  deriving DecidableEq, Repr

def PolicyError.message : PolicyError → String
  | unknownPolicy name => "unknown indentation policy `" ++ name ++ "`"
  | missingThreshold name =>
      "policy `" ++ name ++ "` needs a threshold, as in `" ++ name ++ ":1`"
  | invalidThreshold name value =>
      "invalid threshold `" ++ value ++ "` for policy `" ++ name ++ "`"
  | unexpectedThreshold name => "policy `" ++ name ++ "` takes no threshold"
  | malformedOverride text => "override `" ++ text ++ "` is not of the form SYMBOL=POLICY"

namespace Policy

/-- The distance from the opening bracket, for the policies that fix it. -/
def fixedOffset? : Policy → Option UInt32
  | sequence | definition => some bodyOffset
  | branch => some branchOffset
  | standard | binding _ | verbatim => none

theorem toNat_pos_of_fixedOffset? {policy : Policy} {distance : UInt32}
    (fixed : policy.fixedOffset? = some distance) : 0 < distance.toNat := by
  cases policy <;> cases fixed <;> decide

def render : Policy → String
  | standard => "default"
  | sequence => "sequence"
  | definition => "definition"
  | branch => "if"
  | binding threshold => "with:" ++ String.ofList (writeNumeral threshold.toNat)
  | verbatim => "none"

inductive Meaning where
  | fixed (policy : Policy)
  | needsThreshold
  deriving DecidableEq, Repr

def meaning? (name : String) : Option Meaning :=
  if name = "default" then some (.fixed standard)
  else if name = "sequence" then some (.fixed sequence)
  else if name = "definition" then some (.fixed definition)
  else if name = "if" ∨ name = "branch" then some (.fixed branch)
  else if name = "none" then some (.fixed verbatim)
  else if name = "with" ∨ name = "binding" then some .needsThreshold
  else none

/-- The policy of a name and the threshold text behind its colon, if it has one. -/
def ofParts (name : String) (threshold : Option (List Char)) : Except PolicyError Policy :=
  match meaning? name, threshold with
  | none, _ => .error (.unknownPolicy name)
  | some (.fixed policy), none => .ok policy
  | some (.fixed _), some _ => .error (.unexpectedThreshold name)
  | some .needsThreshold, none => .error (.missingThreshold name)
  | some .needsThreshold, some value =>
      match readNumeral? value with
      | some number => .ok (binding number)
      | none => .error (.invalidThreshold name (String.ofList value))

def parse (text : String) : Except PolicyError Policy :=
  match splitAtFirst ':' (trim text.toList) with
  | none => ofParts (String.ofList (trim text.toList)) none
  | some (name, threshold) => ofParts (String.ofList (trim name)) (some (trim threshold))

end Policy

/-- Read an override: a symbol, an equals sign, and the policy of the symbol. -/
def parseOverride (text : String) : Except PolicyError (String × Policy) :=
  match splitAtFirst '=' text.toList with
  | none => .error (.malformedOverride text)
  | some (symbol, policy) =>
      if trim symbol = [] then
        .error (.malformedOverride text)
      else
        (Policy.parse (String.ofList policy)).map fun parsed =>
          (String.ofList (trim symbol), parsed)

/-- Read overrides in order; the first that fails decides. -/
def parseOverrides (texts : List String) : Except PolicyError (List (String × Policy)) :=
  texts.mapM parseOverride

end SchemeLayout
