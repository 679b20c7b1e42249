import SchemeLayout.Program.Run

/-!
The entry point: carry out the plan for the given arguments.
-/

set_option autoImplicit false

namespace SchemeLayout

namespace Program

/-- The positive form of a system code, which may come with its sign changed. -/
def systemCode (code : UInt32) : Nat :=
  if code < 0x80000000 then code.toNat else (0 - code).toNat

/-- The failure that an error of the file system stands for. -/
def readFailure : IO.Error → ReadFailure
  | .noFileOrDirectory _ code details | .inappropriateType _ code details
  | .permissionDenied _ code details | .resourceExhausted _ code details
  | .invalidArgument _ code details | .otherError code details
  | .hardwareFault code details =>
      .ofCode (systemCode code) details
  | error => .other error.toString 0

def readFile (path : String) : IO ReadResult := do
  try
    let content ← IO.FS.readBinFile path
    return .ok content.data.toList
  catch error =>
    return .error (readFailure error)

def emit (output : Output) : IO UInt32 := do
  let stdout ← IO.getStdout
  stdout.write ⟨output.stdout.toArray⟩
  stdout.flush
  (← IO.getStderr).putStr output.stderr
  return UInt32.ofNat output.status

end Program

end SchemeLayout

open SchemeLayout in
def main (arguments : List String) : IO UInt32 := do
  match Program.plan arguments with
  | .finish output => Program.emit output
  | .readFile path next => Program.emit (next (← Program.readFile path))
