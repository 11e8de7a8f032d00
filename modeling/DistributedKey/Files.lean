/-
A tree of files, and what the paths of a working directory lead to.

A path that starts with a slash is walked from the root, and any other one from the working directory, name by name. A
dot stays in the directory, two dots go to the one around it, and the root is its own surrounding. Every name before
the last has to be that of a directory.

- `read` is what opening and reading a path comes to. A directory can be opened, but it has no bytes to read.
- `create` tells whether a file can be written at a path, and if not, why.
-/
import DistributedKey.Bytes

namespace DistributedKey

inductive Entry where
  | file (content : Bytes)
  | directory (entries : List (String × Entry))

abbrev Directory := List (String × Entry)

/-- why a path does not lead to a file -/
inductive PathError where
  | notFound
  | notDirectory
  | isDirectory
  | nameTooLong
  /-- the text holds a zero, which ends a path -/
  | zeroCharacter
deriving DecidableEq

def PathError.message : PathError → String
  | .notFound => "No such file or directory (os error 2)"
  | .notDirectory => "Not a directory (os error 20)"
  | .isDirectory => "Is a directory (os error 21)"
  | .nameTooLong => "File name too long (os error 36)"
  | .zeroCharacter => "file name contained an unexpected NUL byte"

/-! ## paths -/

structure Path where
  /-- walked from the root -/
  absolute : Bool
  /-- the names before the last -/
  parents : List String
  /-- none for the root -/
  last : Option String
  /-- a slash follows the last name -/
  closed : Bool
deriving DecidableEq

namespace Path

/-- bytes of a name -/
def nameLimit : Nat := 255

/-- bytes of a path -/
def limit : Nat := 4095

def ofText (s : String) : Except PathError Path :=
  if s.toList.contains (Char.ofNat 0) then .error .zeroCharacter
  else if s.isEmpty then .error .notFound
  else if limit < s.utf8ByteSize then .error .nameTooLong
  else
    let pieces := s.splitOn "/"
    let names := pieces.filter (· ≠ "")
    .ok ⟨pieces.head? = some "", names.dropLast, names.getLast?, pieces.getLast? = some ""⟩

end Path

/-! ## walking -/

/-- a directory, and those around it, the innermost first -/
structure Place where
  here : Directory
  around : List Directory := []

namespace Place

def up (p : Place) : Place :=
  match p.around with
  | [] => p
  | d :: ds => ⟨d, ds⟩

def root (p : Place) : Place := ⟨p.around.getLastD p.here, []⟩

/-- the entry of a name -/
def find (p : Place) (name : String) : Except PathError Entry :=
  if Path.nameLimit < name.utf8ByteSize then .error .nameTooLong
  else
    match p.here.lookup name with
    | some e => .ok e
    | none => .error .notFound

/-- a name that is no entry -/
def isDots (name : String) : Bool := name = "." || name = ".."

/-- the directory of a name -/
def enter (p : Place) (name : String) : Except PathError Place := do
  if name = "." then return p
  if name = ".." then return p.up
  match ← p.find name with
  | .directory entries => return ⟨entries, p.here :: p.around⟩
  | .file _ => throw .notDirectory

/-- the directory that the last name of a path is looked for in -/
def parent (p : Place) (path : Path) : Except PathError Place :=
  path.parents.foldlM enter (if path.absolute then p.root else p)

/-- what a path leads to -/
def resolve (p : Place) (path : Path) : Except PathError Entry := do
  let place ← p.parent path
  match path.last with
  | none => return .directory place.here
  | some name =>
    if path.closed || isDots name then return .directory (← place.enter name).here
    place.find name

end Place

/-! ## reading and writing -/

/-- what reading a path comes to -/
inductive Reading where
  /-- there is nothing to open -/
  | unopened
  /-- it can be opened, but not read -/
  | unreadable
  | content (bytes : Bytes)
deriving DecidableEq

/-- the files that a command can see -/
structure Files where
  read : String → Reading
  create : String → Except PathError Unit

namespace Place

def read (p : Place) (text : String) : Reading :=
  match Path.ofText text >>= p.resolve with
  | .error _ => .unopened
  | .ok (.directory _) => .unreadable
  | .ok (.file content) => .content content

/-- a file that is there is written over -/
def create (p : Place) (text : String) : Except PathError Unit := do
  let path ← Path.ofText text
  let place ← p.parent path
  match path.last with
  | none => throw .isDirectory
  | some name =>
    if path.closed || isDots name then throw .isDirectory
    match place.find name with
    | .ok (.directory _) => throw .isDirectory
    | .ok (.file _) | .error .notFound => return ()
    | .error e => throw e

def files (p : Place) : Files := ⟨p.read, p.create⟩

end Place

end DistributedKey
