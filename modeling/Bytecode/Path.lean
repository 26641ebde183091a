import Bytecode.Text.Blank

/-!
Paths of files, as text with slashes.

* `Path.clean`: the shortest path that leads to the same place by its names alone;
* `Path.join`, `Path.parent`, `Path.absolute`, `Path.ancestors`.
-/
namespace Bytecode.Path

def parts (path : String) : List String :=
  (Text.splitOn '/' path.toList).map String.ofList

def isAbsolute (path : String) : Bool :=
  path.toList.head? == some '/'

/-- The names that a path goes through once one more is followed, the last one first. Above the root
there is only the root. -/
def follow (rooted : Bool) (names : List String) (name : String) : List String :=
  if name == "" || name == "." then names
  else if name == ".." then
    match names with
    | [] => if rooted then [] else [".."]
    | last :: rest => if last == ".." then ".." :: last :: rest else rest
  else name :: names

def ofNames (rooted : Bool) (names : List String) : String :=
  let body := "/".intercalate names.reverse
  if rooted then "/" ++ body else if body == "" then "." else body

/-- The names that a path goes through, the last one first. -/
def names (path : String) : List String :=
  (parts path).foldl (follow (isAbsolute path)) []

/-- The path without empty names, `.`, and `..` after a name. -/
def clean (path : String) : String :=
  ofNames (isAbsolute path) (names path)

def join (base path : String) : String :=
  match [base, path].filter (· != "") with
  | [] => ""
  | given => clean ("/".intercalate given)

def parent (path : String) : String :=
  clean ("/".intercalate ((parts path).dropLast ++ [""]))

/-- The path from the root on, for one that starts in a directory. -/
def absolute (directory path : String) : String :=
  if isAbsolute path then clean path else join directory path

def ancestors (path : String) : List String :=
  above (names path)
where
  above : List String → List String
    | [] => [ofNames true []]
    | name :: rest => ofNames true (name :: rest) :: above rest

end Bytecode.Path
