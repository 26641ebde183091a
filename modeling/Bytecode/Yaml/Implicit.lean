import Bytecode.Ieee
import Bytecode.Text.Blank

/-!
What a plain scalar stands for: null, a truth value, a number, a time, or else its own text.

* `Implicit.ofText`: the value of a plain scalar;
* `readsAsText`: would a text, written plainly, be read back as a text by every reader?
-/
namespace Bytecode.Yaml

/-- The value of a plain scalar. A float is the bit pattern of its eight bytes. -/
inductive Implicit where
  | null
  | bool (b : Bool)
  | int (n : Int)
  | float (bits : Nat)
  | timestamp
  | text
  deriving DecidableEq, Repr

def Implicit.tag : Implicit → String
  | .null => "!!null"
  | .bool _ => "!!bool"
  | .int _ => "!!int"
  | .float _ => "!!float"
  | .timestamp => "!!timestamp"
  | .text => "!!str"

/-! ### Words -/

def words : List (String × Implicit) :=
  let f := FloatFormat.binary64
  let spellings (value : Implicit) (names : List String) := names.map (·, value)
  spellings (.bool true) ["true", "True", "TRUE"] ++
    spellings (.bool false) ["false", "False", "FALSE"] ++
    spellings .null ["", "~", "null", "Null", "NULL"] ++
    spellings (.float f.nan) [".nan", ".NaN", ".NAN"] ++
    spellings (.float f.infinity) [".inf", ".Inf", ".INF", "+.inf", "+.Inf", "+.INF"] ++
    spellings (.float (f.infinity + f.signBit)) ["-.inf", "-.Inf", "-.INF"]

/-- Words that were truth values in an older version. -/
def oldTruthValues : List String :=
  ["y", "Y", "yes", "Yes", "YES", "on", "On", "ON", "n", "N", "no", "No", "NO", "off", "Off", "OFF"]

/-! ### Times -/

def shortNumber? : List Char → Option (Nat × List Char)
  | a :: rest =>
    if !a.isDigit then none
    else match rest with
      | b :: rest' =>
        if b.isDigit then some ((a.toNat - 48) * 10 + (b.toNat - 48), rest')
        else some (a.toNat - 48, rest)
      | [] => some (a.toNat - 48, [])
  | [] => none

def below? (limit : Nat) (s : List Char) : Option (List Char) := do
  let (n, s) ← shortNumber? s
  if n < limit then some s else none

def after? (c : Char) : List Char → Option (List Char)
  | d :: rest => if d == c then some rest else none
  | [] => none

def daysIn (year month : Nat) : Nat :=
  if month = 2 then
    if year % 4 = 0 ∧ (year % 100 ≠ 0 ∨ year % 400 = 0) then 29 else 28
  else if month = 4 ∨ month = 6 ∨ month = 9 ∨ month = 11 then 30
  else 31

def date? (s : List Char) : Option (List Char) := do
  let digits := s.takeWhile Char.isDigit
  if digits.length ≠ 4 then none
  let year ← Text.digitsValue? 10 digits
  let (month, s) ← shortNumber? (← after? '-' (s.drop 4))
  let (day, s) ← shortNumber? (← after? '-' s)
  if 1 ≤ month ∧ month ≤ 12 ∧ 1 ≤ day ∧ day ≤ daysIn year month then some s else none

def clock? (s : List Char) : Option (List Char) := do
  let s ← below? 24 s
  let s ← below? 60 (← after? ':' s)
  let s ← below? 60 (← after? ':' s)
  match s with
  | c :: d :: rest =>
    if (c == '.' || c == ',') && d.isDigit then some (rest.dropWhile Char.isDigit) else some s
  | s => some s

def isOffset : List Char → Bool
  | ['Z'] => true
  | [sign, a, b, ':', c, d] =>
    (sign == '+' || sign == '-') && [a, b, c, d].all Char.isDigit &&
      (Text.digitsValue? 10 [a, b]).any (· ≤ 24) && (Text.digitsValue? 10 [c, d]).any (· ≤ 60)
  | _ => false

def isTimestamp (s : List Char) : Bool :=
  match date? s with
  | none => false
  | some [] => true
  | some (c :: rest) =>
    if c == 'T' || c == 't' then (clock? rest).any isOffset
    else c == ' ' && (clock? (rest.dropWhile (· == ' '))).any List.isEmpty

/-! ### Numbers -/

def isDecimal (s : List Char) : Bool :=
  let s := (Text.splitSign s).2
  let whole := s.takeWhile Char.isDigit
  let s := s.dropWhile Char.isDigit
  let (fraction, s) := match s with
    | '.' :: rest => (rest.takeWhile Char.isDigit, rest.dropWhile Char.isDigit)
    | s => ([], s)
  (!whole.isEmpty || !fraction.isEmpty) &&
    match s with
    | [] => true
    | c :: rest =>
      let digits := (Text.splitSign rest).2
      (c == 'e' || c == 'E') && !digits.isEmpty && digits.all Char.isDigit

def float? (s : List Char) : Option Nat :=
  (Text.parseReal? s).bind FloatFormat.binary64.ofNumeral?

def signed? (base : Nat) (s : List Char) : Option Int := do
  let (negative, digits) := Text.splitSign s
  if digits.isEmpty then none
  let n ← Text.digitsValue? base digits
  if negative then if n ≤ Nat.pow 2 63 then some (-(n : Int)) else none
  else if n < Nat.pow 2 63 then some (n : Int) else none

/-- The integer after the mark of a base, where a sign may stand on either side of the mark. -/
def marked? : List Char → Option Int
  | '0' :: 'b' :: s => signed? 2 s
  | '0' :: 'o' :: s => signed? 8 s
  | '-' :: '0' :: 'b' :: s => signed? 2 ('-' :: s)
  | '-' :: '0' :: 'o' :: s => signed? 8 ('-' :: s)
  | _ => none

/-- The number that a text writes. Underscores do not count, and whole numbers go up to 64 bits. -/
def number? (s : List Char) : Option Implicit :=
  let s := s.filter (· != '_')
  let unsigned? : Option Int := (Text.parseNatural? s).bind fun n =>
    if n < Nat.pow 2 64 then some (n : Int) else none
  let decimal? := if isDecimal s then float? s else none
  ((Text.parseInteger? 64 s).map .int).or ((unsigned?.map .int).or
    ((decimal?.map .float).or ((marked? s).map .int)))

def Implicit.ofText (s : String) : Implicit :=
  match words.lookup s with
  | some value => value
  | none => match s.toList with
    | [] => .null
    | c :: rest =>
      if c == '.' then ((float? (c :: rest)).map .float).getD .text
      else if c == '+' || c == '-' || c.isDigit then
        if isTimestamp (c :: rest) then .timestamp else (number? (c :: rest)).getD .text
      else .text

/-! ### Texts that stay texts -/

/-- Is a text a number to the base sixty, such as a time of day? -/
def isSexagesimal (s : List Char) : Bool :=
  let s := (Text.splitSign s).2
  let piece (p : List Char) : Bool := match p with
    | [d] => d.isDigit
    | [t, d] => '0' ≤ t && t ≤ '5' && d.isDigit
    | _ => false
  let digits (p : List Char) : Bool := p.all fun c => c.isDigit || c == '_'
  match Text.splitOn ':' s with
  | first :: more :: rest =>
    let pieces := more :: rest
    let last := pieces.getLastD []
    first.head?.any Char.isDigit && digits first && pieces.dropLast.all piece &&
      match Text.cut? '.' last with
      | some (whole, fraction) => piece whole && digits fraction
      | none => piece last
  | _ => false

/-- Would a text, written plainly, be read back as a text, also by readers of an older version? -/
def readsAsText (s : String) : Bool :=
  Implicit.ofText s = .text && !isSexagesimal s.toList && !oldTruthValues.contains s

end Bytecode.Yaml
