import Bytecode.Text.Quoted

/-!
Numerals as they are written in assembly text.

* `parseInteger?` reads an integer: a sign, then digits, in base 2, 8 or 16 after `0b`, `0o` or
  `0x`, in base 8 after a bare `0`, otherwise in base 10, kept within a number of bits;
* `parseReal?` reads a real number: decimal, or hexadecimal with a binary exponent, or the words
  for infinity and for no number at all.

An underscore may separate digits, or a base mark and a digit (`underscoresSeparate`).
-/
namespace Bytecode.Text

/-- What the scan for misplaced underscores saw last. -/
inductive Seen where
  | start
  | digit
  | underscore
  | other
  deriving DecidableEq

/-- One step of the scan for misplaced underscores; `none` once one is found. -/
def Seen.step (hex : Bool) (seen : Seen) (c : Char) : Option Seen :=
  if c.isDigit || (hex && (hexValue? c).isSome) then some .digit
  else if c == '_' then if seen = .digit then some .underscore else none
  else if seen = .underscore then none
  else some .other

/-- A text without its sign, and whether the sign was a minus. -/
def splitSign : List Char → Bool × List Char
  | '-' :: s => (true, s)
  | '+' :: s => (false, s)
  | s => (false, s)

/-- The base that a letter after a leading zero announces. -/
def baseOfMark? (c : Char) : Option Nat :=
  match c with
  | 'b' | 'B' => some 2
  | 'o' | 'O' => some 8
  | 'x' | 'X' => some 16
  | _ => none

/-- Does every underscore stand between two digits, or between a base mark and a digit? -/
def underscoresSeparate (s : List Char) : Bool :=
  let s := (splitSign s).2
  let run (hex : Bool) (seen : Seen) (rest : List Char) : Bool :=
    match rest.foldlM (Seen.step hex) seen with
    | some last => last ≠ .underscore
    | none => false
  match s with
  | '0' :: c :: rest =>
    match baseOfMark? c with
    | some base => run (base == 16) .digit rest
    | none => run false .start s
  | _ => run false .start s

/-- The number that digits write in a base, underscores skipped. -/
def digitsValue? (base : Nat) (s : List Char) : Option Nat :=
  s.foldlM (fun n c =>
    if c == '_' then some n
    else (hexValue? c).bind fun d => if d < base then some (n * base + d) else none) 0

def parseNatural? (s : List Char) : Option Nat := do
  let n ← match s with
    | [] => none
    | '0' :: c :: d :: rest =>
      match baseOfMark? c with
      | some base => digitsValue? base (d :: rest)
      | none => digitsValue? 8 (c :: d :: rest)
    | '0' :: rest => digitsValue? 8 rest
    | s => digitsValue? 10 s
  if s.contains '_' && !underscoresSeparate s then none else some n

/-- The integer that a numeral writes, if it fits in `bits` bits with a sign. -/
def parseInteger? (bits : Nat) (s : List Char) : Option Int := do
  let (negative, digits) := splitSign s
  let n ← parseNatural? digits
  if negative then if n ≤ Nat.pow 2 (bits - 1) then some (-(n : Int)) else none
  else if n < Nat.pow 2 (bits - 1) then some (n : Int) else none

/-! ### Real numbers -/

/-- A real number as it is written: `mantissa * base ^ exponent`, or a word. -/
inductive RealNumeral where
  | nan
  | infinity (negative : Bool)
  | finite (negative : Bool) (mantissa base : Nat) (exponent : Int)
  deriving DecidableEq

/-- The digits before the exponent, as far as they have been read. -/
structure Mantissa where
  value : Nat := 0
  places : Nat := 0
  point : Bool := false
  digits : Bool := false

/-- Reads the digits, the point and the underscores before an exponent; also gives what follows. -/
def Mantissa.read (base : Nat) (m : Mantissa) : List Char → Mantissa × List Char
  | [] => (m, [])
  | c :: rest =>
    if c == '_' then m.read base rest
    else if c == '.' then
      if m.point then (m, c :: rest) else Mantissa.read base { m with point := true } rest
    else match hexValue? c with
      | some d =>
        if d < base then
          Mantissa.read base { m with
            value := m.value * base + d
            places := if m.point then m.places + 1 else m.places
            digits := true } rest
        else (m, c :: rest)
      | none => (m, c :: rest)

/-- The value of an exponent's digits, underscores skipped; it stops growing past five digits. -/
def exponentValue? (s : List Char) : Option Nat :=
  s.foldlM (fun e c =>
    if c == '_' then some e
    else if c.isDigit then some (if e < 10000 then e * 10 + (c.toNat - '0'.toNat) else e)
    else none) 0

/-- A signed exponent, which starts with a digit. -/
def readExponent? (s : List Char) : Option Int :=
  let (negative, digits) := splitSign s
  match digits with
  | c :: _ =>
    if c.isDigit then (exponentValue? digits).map fun e => if negative then -(e : Int) else e
    else none
  | [] => none

/-- A real number in digits. A hexadecimal one needs its exponent. -/
def parseFinite? (s : List Char) : Option RealNumeral := do
  let (negative, unsigned) := splitSign s
  let (hex, body) := match unsigned with
    | '0' :: 'x' :: c :: rest => (true, c :: rest)
    | '0' :: 'X' :: c :: rest => (true, c :: rest)
    | body => (false, body)
  let (m, rest) := Mantissa.read (if hex then 16 else 10) {} body
  if !m.digits then none
  let exponent ← match rest with
    | [] => if hex then none else some 0
    | c :: rest =>
      if c.toLower == (if hex then 'p' else 'e') then readExponent? rest else none
  if s.contains '_' && !underscoresSeparate s then none
  if hex then some (.finite negative m.value 2 (exponent - 4 * m.places))
  else some (.finite negative m.value 10 (exponent - m.places))

/-- A real number: the word `nan`, the words for infinity with or without a sign, or digits. -/
def parseReal? (s : List Char) : Option RealNumeral :=
  let (negative, word) := splitSign (s.map Char.toLower)
  if s.map Char.toLower = "nan".toList then some .nan
  else if word = "inf".toList ∨ word = "infinity".toList then some (.infinity negative)
  else parseFinite? s

end Bytecode.Text
