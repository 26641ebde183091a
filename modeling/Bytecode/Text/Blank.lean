/-!
White space in the wide sense: the blanks of ASCII, the next-line and no-break characters, and the
separators of Unicode.
-/
namespace Bytecode.Text

def isBlank (c : Char) : Bool :=
  let n := c.toNat
  (9 ≤ n && n ≤ 13) || n == 0x20 || n == 0x85 || n == 0xa0 || n == 0x1680 ||
    (0x2000 ≤ n && n ≤ 0x200a) || n == 0x2028 || n == 0x2029 || n == 0x202f || n == 0x205f ||
    n == 0x3000

def trim (s : String) : String :=
  String.ofList ((s.toList.dropWhile isBlank).reverse.dropWhile isBlank).reverse

def trimEnd (p : Char → Bool) (s : String) : String :=
  String.ofList (s.toList.reverse.dropWhile p).reverse

/-- One more character in front of the pieces of a text. -/
def consPiece (sep c : Char) (pieces : List (List Char)) : List (List Char) :=
  if c == sep then [] :: pieces
  else match pieces with
    | [] => [[c]]
    | piece :: pieces => (c :: piece) :: pieces

def splitOn (sep : Char) (s : List Char) : List (List Char) :=
  s.foldr (consPiece sep) [[]]

def cut? (sep : Char) : List Char → Option (List Char × List Char)
  | [] => none
  | c :: rest =>
    if c == sep then some ([], rest)
    else (cut? sep rest).map fun (before, after) => (c :: before, after)

def cutLast? (sep : Char) (s : List Char) : Option (List Char × List Char) :=
  (cut? sep s.reverse).map fun (after, before) => (before.reverse, after.reverse)

end Bytecode.Text
