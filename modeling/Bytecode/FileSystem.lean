import Bytecode.ConstantPool
import Bytecode.Path

/-!
Access to files.

* `FileSystem` is what a program may do with files, in a monad;
* `FileTree` is a tree of files in memory, and `FileTree.system` the access to it;
* `FileError.readMessage`, `FileError.writeMessage`: the wording of what can go wrong.
-/
namespace Bytecode

inductive FileError where
  | missing
  | notDirectory
  | isDirectory
  deriving DecidableEq, Repr

def FileError.reason : FileError → String
  | .missing => "no such file or directory"
  | .notDirectory => "not a directory"
  | .isDirectory => "is a directory"

/-- The message for a file that cannot be read. A directory can be opened, but not read. -/
def FileError.readMessage (path : String) (e : FileError) : String :=
  (if e = .isDirectory then "read " else "open ") ++ path ++ ": " ++ e.reason

def FileError.writeMessage (path : String) (e : FileError) : String :=
  "open " ++ path ++ ": " ++ e.reason

/-- The access to files. Relative paths start in the working directory. -/
structure FileSystem (m : Type → Type) where
  directory : String
  read : String → m (Except FileError Utf8Text)
  /-- Replaces or creates a file in a directory that exists. -/
  write : String → Utf8Text → m (Except FileError Unit)
  present : String → m Bool
  /-- Creates a directory and those above it; false if a file is in the way. -/
  makeDirectory : String → m Bool

/-! ### Files in memory -/

/-- Files and directories by the names on the way from the root. A directory has no content. -/
structure FileTree where
  entries : List (List String × Option Utf8Text) := []

namespace FileTree

def content? (t : FileTree) (names : List String) : Option Utf8Text :=
  (t.entries.lookup names).join

def isDirectory (t : FileTree) (names : List String) : Bool :=
  names.isEmpty || t.entries.any fun (place, content) =>
    (place == names && content.isNone) || (names.isPrefixOf place && place != names)

/-- Where names lead from a place. Each place on the way must be a directory. -/
def walk (t : FileTree) (place : List String) : List String → Except FileError (List String)
  | [] => .ok place
  | name :: rest =>
    if !t.isDirectory place then
      .error (if (t.content? place).isSome then .notDirectory else .missing)
    else if name == "" || name == "." then walk t place rest
    else if name == ".." then walk t place.dropLast rest
    else walk t (place ++ [name]) rest

def resolve (t : FileTree) (directory path : String) : Except FileError (List String) :=
  let start := if Path.isAbsolute path then [] else (Path.names directory).reverse
  if path == "" then .error .missing else t.walk start (Path.parts path)

def read (t : FileTree) (directory path : String) : Except FileError Utf8Text := do
  let place ← t.resolve directory path
  if t.isDirectory place then .error .isDirectory
  else match t.content? place with
    | some content => .ok content
    | none => .error .missing

def insert (t : FileTree) (place : List String) (content : Option Utf8Text) : FileTree :=
  { entries := (place, content) :: t.entries.filter (·.1 != place) }

def write (t : FileTree) (directory path : String) (content : Utf8Text) :
    Except FileError FileTree := do
  let place ← t.resolve directory path
  if t.isDirectory place then .error .isDirectory else .ok (t.insert place (some content))

def present (t : FileTree) (directory path : String) : Bool :=
  match t.resolve directory path with
  | .ok place => t.isDirectory place || (t.content? place).isSome
  | .error _ => false

/-- The tree with directories along names from a place; nothing if a file is in the way. -/
def makeAlong (t : FileTree) (place : List String) : List String → Option FileTree
  | [] => some t
  | name :: rest =>
    let next := place ++ [name]
    if (t.content? next).isSome then none
    else if t.isDirectory next then makeAlong t next rest
    else makeAlong (t.insert next none) next rest

def makeDirectory (t : FileTree) (directory path : String) : Option FileTree :=
  t.makeAlong [] (Path.names (Path.absolute directory path)).reverse

def system (directory : String) : FileSystem (StateM FileTree) where
  directory
  read path := return (← get).read directory path
  write path content := do
    match (← get).write directory path content with
    | .ok t =>
      set t
      return .ok ()
    | .error e => return .error e
  present path := return (← get).present directory path
  makeDirectory path := do
    match (← get).makeDirectory directory path with
    | some t =>
      set t
      return true
    | none => return false

end FileTree

end Bytecode
