/-!
Sets of characters, as ranges of their numbers.
-/
namespace Bytecode.Text

def hexNumber (digits : String) : Nat :=
  digits.foldl (fun n c => 16 * n + (if c.isDigit then c.toNat - 48 else c.toNat - 87)) 0

/-- The ranges that lines list, both ends included. A number alone is a range of its own. -/
def ranges (lines : List String) : Array (Nat × Nat) :=
  (lines.flatMap (·.splitOn " ")).toArray.map fun item =>
    match item.splitOn "-" with
    | [lo, hi] => (hexNumber lo, hexNumber hi)
    | _ => (hexNumber item, hexNumber item)

def inRanges (ranges : Array (Nat × Nat)) (c : Char) : Bool :=
  ranges.any fun (lo, hi) => lo ≤ c.toNat && c.toNat ≤ hi

end Bytecode.Text
