import SchemeLayout.Program.Command

/-!
The command line program.

From its arguments the program makes a `Plan`: either it is finished, or it needs
the content of one file to go on.  `run` carries a plan out with a function that
reads files.
-/

set_option autoImplicit false

namespace SchemeLayout

structure Output where
  status : Nat := 0
  stdout : Bytes := []
  stderr : String := ""
  deriving DecidableEq, Repr

inductive Plan where
  | finish (output : Output)
  | readFile (path : String) (next : ReadResult → Output)

namespace Program

def usage : String :=
  "Scheme indenter\n" ++
  "\n" ++
  "Usage: scmi <command> [options]\n" ++
  "\n" ++
  "Commands:\n" ++
  "  fmt <file>              Print the file with every line re-indented\n" ++
  "  indent <file> <offset>  Print the column a newline at <offset> indents to\n" ++
  "  help                    Show this message\n" ++
  "\n" ++
  "Options:\n" ++
  "  --check                 (fmt) Exit with status 2 when the file would change\n" ++
  "  --tab-width=N           Columns a tab advances (default: 8)\n" ++
  "  --policy=SYMBOL=POLICY  Indent forms headed by SYMBOL with POLICY:\n" ++
  "                          default, definition, sequence, if, with:N, none\n" ++
  "\n" ++
  "Set RUST_LOG (e.g. RUST_LOG=scm_indent=trace) to enable logging.\n"

def formatUsage : String :=
  "Usage: scmi fmt <file.scm> [--check] [--tab-width=N] [--policy=SYMBOL=POLICY]...\n"

def indentUsage : String :=
  "Usage: scmi indent <file.scm> <offset> [--tab-width=N] [--policy=SYMBOL=POLICY]...\n"

/-- End with an error, and with a hint if there is one. -/
def fail (error : CommandError) (hint : String) : Output :=
  { status := 1, stderr := "error: " ++ error.message ++ "\n" ++ hint }

def formatOutput (options : Options) (path : String) (outcome : FormatOutcome) : Output :=
  if options.check then
    if outcome.isChanged then
      { status := 2, stderr := path ++ ": indentation differs\n" }
    else
      {}
  else
    { stdout := outcome.text }

def planFormat (texts : List String) : Plan :=
  match Arguments.parse texts with
  | .error error => .finish (fail error "")
  | .ok arguments =>
      match arguments.filePath with
      | .error error => .finish (fail error formatUsage)
      | .ok path =>
          .readFile path fun result =>
            match Command.formatFile arguments.options path result with
            | .error error => fail error ""
            | .ok outcome => formatOutput arguments.options path outcome

def planIndent (texts : List String) : Plan :=
  match Arguments.parse texts with
  | .error error => .finish (fail error "")
  | .ok arguments =>
      match arguments.filePathAndOffset with
      | .error error => .finish (fail error indentUsage)
      | .ok (path, offsetText) =>
          match Command.parseOffset offsetText with
          | .error error => .finish (fail error "")
          | .ok offset =>
              .readFile path fun result =>
                match Command.indentInFile arguments.options path offset result with
                | .error error => fail error ""
                | .ok column => { stdout := encode (column.repr ++ "\n") }

def plan : List String → Plan
  | [] => .finish { stdout := encode usage }
  | command :: texts =>
      if command = "fmt" then planFormat texts
      else if command = "indent" then planIndent texts
      else if command = "help" ∨ command = "--help" ∨ command = "-h" then
        .finish { stdout := encode usage }
      else
        .finish {
          status := 1
          stdout := encode usage
          stderr := "error: unknown command '" ++ command ++ "'\n\n" }

/-- Run the program with a function that reads files. -/
def run (read : String → ReadResult) (arguments : List String) : Output :=
  match plan arguments with
  | .finish output => output
  | .readFile path next => next (read path)

end Program

end SchemeLayout
