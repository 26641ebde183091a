import Bytecode.Text.Numeral

/-!
Binary floating-point numbers as bit patterns.

* `FloatFormat.round?` gives the bits of the representable number nearest to a quotient, a tie going
  to the even neighbour, and `none` past the largest finite number;
* `FloatFormat.same` compares two patterns as numbers: the zeros are equal and a pattern that is
  no number equals nothing.
-/
namespace Bytecode

/-- A binary format: the bits of the significand, the hidden one included, those of the exponent,
and the pattern written for a result that is no number. -/
structure FloatFormat where
  precision : Nat
  exponentBits : Nat
  nan : Nat

namespace FloatFormat

def binary32 : FloatFormat := ⟨24, 8, 0x7fc00000⟩

def binary64 : FloatFormat := ⟨53, 11, 0x7ff8000000000001⟩

/-- The pattern of infinity, which is also the least pattern past the finite numbers. -/
def infinity (f : FloatFormat) : Nat :=
  (Nat.pow 2 f.exponentBits - 1) * Nat.pow 2 (f.precision - 1)

def signBit (f : FloatFormat) : Nat :=
  Nat.pow 2 (f.precision - 1 + f.exponentBits)

def leastExponent (f : FloatFormat) : Int :=
  3 - (Nat.pow 2 (f.exponentBits - 1) : Nat) - f.precision

/-- The natural number nearest to `num / den`, a tie going to the even one. -/
def roundQuotient (num den : Nat) : Nat :=
  let q := num / den
  let r := num % den
  if 2 * r < den then q
  else if 2 * r > den then q + 1
  else if q % 2 = 0 then q else q + 1

/-- The floor of the binary logarithm of `num / den`, both positive. -/
def log2Quotient (num den : Nat) : Int :=
  let d : Int := (num.log2 : Int) - den.log2
  if num * Nat.pow 2 (-d).toNat ≥ den * Nat.pow 2 d.toNat then d else d - 1

def round? (f : FloatFormat) (num den : Nat) : Option Nat :=
  if num = 0 then some 0
  else
    let e := max f.leastExponent (log2Quotient num den - (f.precision - 1 : Nat))
    let m := roundQuotient (num * Nat.pow 2 (-e).toNat) (den * Nat.pow 2 e.toNat)
    let bits := (e - f.leastExponent).toNat * Nat.pow 2 (f.precision - 1) + m
    if bits < f.infinity then some bits else none

/-- The pattern of a written number. Far out of range the exponent alone decides. -/
def ofNumeral? (f : FloatFormat) : Text.RealNumeral → Option Nat
  | .nan => some f.nan
  | .infinity negative => some (f.infinity + if negative then f.signBit else 0)
  | .finite negative mantissa base exponent =>
    let magnitude :=
      if mantissa = 0 then some 0
      else if exponent > 2000 then none
      else if exponent < -(2000 + mantissa.log2 : Nat) then some 0
      else f.round? (mantissa * Nat.pow base exponent.toNat) (Nat.pow base (-exponent).toNat)
    magnitude.map (· + if negative then f.signBit else 0)

def magnitude (f : FloatFormat) (bits : Nat) : Nat :=
  bits % f.signBit

def isNaN (f : FloatFormat) (bits : Nat) : Bool :=
  f.infinity < f.magnitude bits

/-- The integer part of a finite number, without its fraction. -/
def truncate (f : FloatFormat) (bits : Nat) : Int :=
  let unit := Nat.pow 2 (f.precision - 1)
  let field := f.magnitude bits / unit
  let significand := f.magnitude bits % unit + if field = 0 then 0 else unit
  let exponent := f.leastExponent + (field - 1 : Nat)
  let n : Nat := significand * Nat.pow 2 exponent.toNat / Nat.pow 2 (-exponent).toNat
  if bits < f.signBit then n else -(n : Int)

def same (f : FloatFormat) (a b : Nat) : Bool :=
  !f.isNaN a && (a == b || (f.magnitude a == 0 && f.magnitude b == 0))

end FloatFormat

end Bytecode
