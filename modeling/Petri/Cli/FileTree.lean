/-! # Trees of files

Directories and files under one root, and where a path leads. A path is a sequence of names between
slashes; an empty name and `.` stay where they are, and `..` goes back to the directory above. A path
that begins with a slash starts at the root, any other at the current directory.
-/
namespace Petri.Cli
set_option autoImplicit false

/-- Why a path cannot be read or written. -/
inductive PathError where
  | missing
  | notDirectory
  | isDirectory
  | nameTooLong
  | containsNul
  deriving DecidableEq

def PathError.message : PathError → String
  | missing => "No such file or directory (os error 2)"
  | notDirectory => "Not a directory (os error 20)"
  | isDirectory => "Is a directory (os error 21)"
  | nameTooLong => "File name too long (os error 36)"
  | containsNul => "file name contained an unexpected NUL byte"

/-- The names on the way from the root. -/
abbrev Address := List String

inductive Target where
  | directory (address : Address)
  | file (address : Address)
  /-- There is nothing, but the directory is there. -/
  | vacant (address : Address)
  deriving DecidableEq

structure FileTree where
  directories : List Address := []
  /-- The texts of files are in pieces, latest first. -/
  files : List (Address × List String) := []
  current : Address := []

namespace FileTree

/-- The most bytes of a name. -/
def nameLimit : Nat := 255

/-- A path has fewer bytes. -/
def pathLimit : Nat := 4096

def follow (tree : FileTree) (here : Address) : List String → Except PathError Target
  | [] => .ok (.directory here)
  | name :: rest =>
    if name = "" ∨ name = "." then tree.follow here rest
    else if name = ".." then tree.follow here.dropLast rest
    else if nameLimit < name.utf8ByteSize then .error .nameTooLong
    else
      let address := here ++ [name]
      if address ∈ tree.directories then tree.follow address rest
      else
        match tree.files.lookup address, rest with
        | some _, [] => .ok (.file address)
        | some _, _ :: _ => .error .notDirectory
        | none, [] => .ok (.vacant address)
        | none, _ :: _ => .error .missing

def followPath (tree : FileTree) (path : String) (names : List String) : Except PathError Target :=
  if path.toList.contains '\x00' then .error .containsNul
  else if pathLimit ≤ path.utf8ByteSize then .error .nameTooLong
  else if path = "" then .error .missing
  else tree.follow (if path.toList.head? = some '/' then [] else tree.current) names

def namesOf (path : String) : List String := path.splitOn "/"

def piecesAt (tree : FileTree) (address : Address) : List String :=
  (tree.files.lookup address).getD []

def read (tree : FileTree) (path : String) : Except PathError String := do
  match ← tree.followPath path (namesOf path) with
  | .file address => return String.join (tree.piecesAt address).reverse
  | .directory _ => .error .isDirectory
  | .vacant _ => .error .missing

/-- Where a file is written. A path that ends with a slash asks for a directory. -/
def placeOf (tree : FileTree) (path : String) : Except PathError Address := do
  let names := namesOf path
  let trimmed := (names.reverse.dropWhile (· == "")).reverse
  match ← tree.followPath path trimmed with
  | .directory _ => .error .isDirectory
  | .file address | .vacant address =>
    if trimmed.length < names.length then .error .isDirectory else return address

def put (tree : FileTree) (address : Address) (pieces : List String) : FileTree :=
  { tree with files := (address, pieces) :: tree.files.filter fun f => f.1 != address }

def write (tree : FileTree) (path text : String) : Except PathError FileTree := do
  return tree.put (← tree.placeOf path) [text]

/-- Adds to the end of a file, which is made if it is not there. -/
def append (tree : FileTree) (path text : String) : Except PathError FileTree := do
  let address ← tree.placeOf path
  return tree.put address (text :: tree.piecesAt address)

end FileTree
end Petri.Cli
