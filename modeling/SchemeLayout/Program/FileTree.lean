import SchemeLayout.Text.Utf8

/-!
A working directory and the reading of its files by path.

A path is a row of names between slashes, followed from the working directory.
Above the working directory nothing is known but that it is a directory.
-/

set_option autoImplicit false

namespace SchemeLayout

inductive ReadFailure where
  | missing
  | isDirectory
  | notDirectory
  | nameTooLong
  | zeroByte
  /-- Any other failure, with the words of the system and its code. -/
  | other (details : String) (code : Nat)
  deriving DecidableEq, Repr

/-- The words for a failure with its system code, where it has one. -/
def ReadFailure.reason : ReadFailure → String
  | missing => "No such file or directory (os error 2)"
  | isDirectory => "Is a directory (os error 21)"
  | notDirectory => "Not a directory (os error 20)"
  | nameTooLong => "File name too long (os error 36)"
  | zeroByte => "file name contained an unexpected NUL byte"
  | other details code => details ++ " (os error " ++ code.repr ++ ")"

def ReadFailure.ofCode (code : Nat) (details : String) : ReadFailure :=
  match code with
  | 2 => missing
  | 20 => notDirectory
  | 21 => isDirectory
  | 36 => nameTooLong
  | _ => other details code

inductive FileNode where
  | file (content : Bytes)
  | directory
  deriving DecidableEq, Repr

/-- The names between the slashes of a path. -/
def pathNames : List Char → List (List Char)
  | [] => [[]]
  | '/' :: rest => [] :: pathNames rest
  | char :: rest =>
      match pathNames rest with
      | [] => [[char]]
      | name :: names => (char :: name) :: names

def maxNameLength : Nat := 255

def maxPathLength : Nat := 4095

/-- The nodes of a working directory by the names that lead to them. -/
structure FileTree where
  nodes : List (List (List Char) × FileNode)

namespace FileTree

def ofFiles (files : List (String × FileNode)) : FileTree :=
  ⟨files.map fun file => (pathNames file.1.toList, file.2)⟩

/-- The node at a location.  A location on the way to a node is a directory. -/
def find? (tree : FileTree) (location : List (List Char)) : Option FileNode :=
  match tree.nodes.find? fun node => node.1 = location with
  | some node => some node.2
  | none =>
      if tree.nodes.any fun node => location.isPrefixOf node.1 then some .directory
      else none

/-- Names that do not lead down: nothing, a point, two points. -/
def isStep (name : List Char) : Bool := name = [] || name = ['.'] || name = ['.', '.']

def isTooLong (name : List Char) : Bool :=
  maxNameLength < (encode (String.ofList name)).length

/-- Follow names above the working directory. -/
def walkOutside (names : List (List Char)) : ReadFailure :=
  match names.find? fun name => !isStep name with
  | none => .isDirectory
  | some name => if isTooLong name then .nameTooLong else .missing

/-- Follow names from the directory at `location` and read the file there. -/
def walk (tree : FileTree) (location : List (List Char)) :
    List (List Char) → Except ReadFailure Bytes
  | [] => .error .isDirectory
  | name :: names =>
      if name = [] ∨ name = ['.'] then
        tree.walk location names
      else if name = ['.', '.'] then
        match location with
        | [] => .error (walkOutside names)
        | _ :: _ => tree.walk location.dropLast names
      else if isTooLong name then
        .error .nameTooLong
      else
        match tree.find? (location ++ [name]) with
        | none => .error .missing
        | some .directory => tree.walk (location ++ [name]) names
        | some (.file content) =>
            if names = [] then .ok content else .error .notDirectory

def read (tree : FileTree) (path : String) : Except ReadFailure Bytes :=
  let chars := path.toList
  if chars = [] then .error .missing
  else if chars.contains (Char.ofNat 0) then .error .zeroByte
  else if maxPathLength < (encode path).length then .error .nameTooLong
  else if chars.head? = some '/' then .error (walkOutside (pathNames chars))
  else tree.walk [] (pathNames chars)

end FileTree

end SchemeLayout
