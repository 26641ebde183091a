/-!
Byte strings: numbers in big-endian order, and hexadecimal text.
-/
namespace Bytecode

/-- The `width` low bytes of a number, the most significant first. -/
def bigEndian : (width n : Nat) → List UInt8
  | 0, _ => []
  | width + 1, n => (n / Nat.pow 256 width).toUInt8 :: bigEndian width n

@[simp]
theorem length_bigEndian (width n : Nat) : (bigEndian width n).length = width := by
  induction width with
  | zero => rfl
  | succ width ih => simp [bigEndian, ih]

/-- The `width` low bytes of an integer in two's complement, the most significant first. -/
def bigEndianInt (width : Nat) (n : Int) : List UInt8 :=
  bigEndian width (n % (Nat.pow 256 width : Nat)).toNat

def ofBigEndian (bytes : List UInt8) : Nat :=
  bytes.foldl (fun n b => n * 256 + b.toNat) 0

end Bytecode
