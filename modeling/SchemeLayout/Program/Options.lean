import SchemeLayout.Program.CommandError
import SchemeLayout.Layout.Style

/-!
The arguments of a command: options, which start with a dash, and positional
arguments, in any order.
-/

set_option autoImplicit false

namespace SchemeLayout

structure Options where
  style : Style := {}
  /-- Report whether the text would change instead of printing it. -/
  check : Bool := false

instance : Inhabited Options := ⟨{}⟩

def Options.isDefault (options : Options) : Bool :=
  !options.check && options.style.same {}

/-- What one argument asks for. -/
inductive Argument where
  | check
  | tabWidth (width : UInt32)
  | policy (symbol : String) (policy : Policy)
  | positional (text : String)
  deriving DecidableEq, Repr

namespace Argument

/-- What follows a lead, if the text starts with it. -/
def after? (lead text : String) : Option String :=
  (lead.toList.isPrefixOf? text.toList).map String.ofList

def parseTabWidth (text : String) : Except CommandError Argument :=
  match readNumeral? text.toList with
  | some width =>
      if width = 0 then .error (.invalidTabWidth text) else .ok (tabWidth width)
  | none => .error (.invalidTabWidth text)

def parsePolicy (text : String) : Except CommandError Argument :=
  match parseOverride text with
  | .ok (symbol, parsed) => .ok (policy symbol parsed)
  | .error error => .error (.policy error)

def parse (text : String) : Except CommandError Argument :=
  if text = "--check" then
    .ok check
  else
    match after? "--tab-width=" text, after? "--policy=" text with
    | some width, _ => parseTabWidth width
    | none, some entry => parsePolicy entry
    | none, none =>
        if text.toList.head? = some '-' then .error (.unknownOption text)
        else .ok (positional text)

end Argument

/-- Options and positional arguments, each in order. -/
structure Arguments where
  options : Options := {}
  positional : List String := []

namespace Arguments

/-- Take in one more argument; a later one wins. -/
def add (arguments : Arguments) : Argument → Arguments
  | .check =>
      { arguments with options := { arguments.options with check := true } }
  | .tabWidth width =>
      let style := arguments.options.style
      let widened := { style with config := { style.config with tabWidth := width } }
      { arguments with options := { arguments.options with style := widened } }
  | .policy symbol policy =>
      let style := arguments.options.style
      let extended := { style with table := style.table.insert symbol policy }
      { arguments with options := { arguments.options with style := extended } }
  | .positional text =>
      { arguments with positional := arguments.positional ++ [text] }

def parse (texts : List String) : Except CommandError Arguments :=
  (texts.mapM Argument.parse).map fun parsed => parsed.foldl add {}

/-- The only positional argument, a file path. -/
def filePath (arguments : Arguments) : Except CommandError String :=
  match arguments.positional with
  | [path] => .ok path
  | [] => .error (.missingArgument "file path")
  | _ :: extra :: _ => .error (.unexpectedArgument extra)

/-- The two positional arguments, a file path and an offset. -/
def filePathAndOffset (arguments : Arguments) : Except CommandError (String × String) :=
  match arguments.positional with
  | [path, offset] => .ok (path, offset)
  | [] => .error (.missingArgument "file path")
  | [_] => .error (.missingArgument "offset")
  | _ :: _ :: extra :: _ => .error (.unexpectedArgument extra)

end Arguments

end SchemeLayout
