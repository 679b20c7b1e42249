import SchemeLayout.Program.FileTree
import SchemeLayout.Layout.Policy

/-!
What stops a command before it has a result.
-/

set_option autoImplicit false

namespace SchemeLayout

inductive CommandError where
  | notFound (path : String)
  | invalidUtf8 (path : String)
  | unreadable (path : String) (failure : ReadFailure)
  | missingArgument (name : String)
  | unexpectedArgument (argument : String)
  | unknownOption (argument : String)
  | invalidTabWidth (text : String)
  | invalidOffset (text : String)
  | offsetOutOfRange (offset length : Nat)
  | policy (error : PolicyError)
  deriving DecidableEq, Repr

def CommandError.message : CommandError → String
  | notFound path => "cannot find file '" ++ path ++ "'"
  | invalidUtf8 path => "'" ++ path ++ "' contains invalid UTF-8 data"
  | unreadable path failure => "error reading '" ++ path ++ "': " ++ failure.reason
  | missingArgument name => "missing " ++ name
  | unexpectedArgument argument => "unexpected argument '" ++ argument ++ "'"
  | unknownOption argument => "unknown option '" ++ argument ++ "'"
  | invalidTabWidth text => "tab width must be a positive integer, found '" ++ text ++ "'"
  | invalidOffset text => "offset must be a non-negative integer, found '" ++ text ++ "'"
  | offsetOutOfRange offset length =>
      "offset " ++ offset.repr ++ " is past the end of the file (" ++ length.repr ++ " bytes)"
  | policy error => error.message

end SchemeLayout
