import Bytecode.Octets

/-!
SHA-256 digests: 32 bytes that stand for a byte string of any length.

* `pad`: the message with its end mark and length, a whole number of blocks;
* `compress`: the chaining state after one block;
* `digest`: the 32 bytes.
-/
namespace Bytecode.Sha256

/-- The first 32 bits of the fractional parts of the cube roots of the first 64 primes. -/
def roundConstants : Array UInt32 :=
  #[
    0x428a2f98, 0x71374491, 0xb5c0fbcf, 0xe9b5dba5, 0x3956c25b, 0x59f111f1,
    0x923f82a4, 0xab1c5ed5, 0xd807aa98, 0x12835b01, 0x243185be, 0x550c7dc3,
    0x72be5d74, 0x80deb1fe, 0x9bdc06a7, 0xc19bf174, 0xe49b69c1, 0xefbe4786,
    0x0fc19dc6, 0x240ca1cc, 0x2de92c6f, 0x4a7484aa, 0x5cb0a9dc, 0x76f988da,
    0x983e5152, 0xa831c66d, 0xb00327c8, 0xbf597fc7, 0xc6e00bf3, 0xd5a79147,
    0x06ca6351, 0x14292967, 0x27b70a85, 0x2e1b2138, 0x4d2c6dfc, 0x53380d13,
    0x650a7354, 0x766a0abb, 0x81c2c92e, 0x92722c85, 0xa2bfe8a1, 0xa81a664b,
    0xc24b8b70, 0xc76c51a3, 0xd192e819, 0xd6990624, 0xf40e3585, 0x106aa070,
    0x19a4c116, 0x1e376c08, 0x2748774c, 0x34b0bcb5, 0x391c0cb3, 0x4ed8aa4a,
    0x5b9cca4f, 0x682e6ff3, 0x748f82ee, 0x78a5636f, 0x84c87814, 0x8cc70208,
    0x90befffa, 0xa4506ceb, 0xbef9a3f7, 0xc67178f2]

structure State where
  a : UInt32
  b : UInt32
  c : UInt32
  d : UInt32
  e : UInt32
  f : UInt32
  g : UInt32
  h : UInt32
  deriving DecidableEq, Repr

/-- The first 32 bits of the fractional parts of the square roots of the first eight primes. -/
def State.initial : State :=
  ⟨0x6a09e667, 0xbb67ae85, 0x3c6ef372, 0xa54ff53a,
    0x510e527f, 0x9b05688c, 0x1f83d9ab, 0x5be0cd19⟩

def State.words (s : State) : List UInt32 :=
  [s.a, s.b, s.c, s.d, s.e, s.f, s.g, s.h]

def State.add (s t : State) : State :=
  ⟨s.a + t.a, s.b + t.b, s.c + t.c, s.d + t.d, s.e + t.e, s.f + t.f, s.g + t.g, s.h + t.h⟩

def rotate (x n : UInt32) : UInt32 :=
  (x >>> n) ||| (x <<< (32 - n))

/-! ### Blocks -/

/-- The big-endian words of a byte string; a rest of fewer than four bytes is dropped. -/
def readWords : List UInt8 → List UInt32
  | a :: b :: c :: d :: rest =>
    ((a.toUInt32 <<< 24) ||| (b.toUInt32 <<< 16) ||| (c.toUInt32 <<< 8) ||| d.toUInt32) ::
      readWords rest
  | _ => []

/-- The next word of a message schedule, from the sixteen before it. -/
def nextWord (w : Array UInt32) : UInt32 :=
  let back (i : Nat) : UInt32 := w[w.size - i]?.getD 0
  let x := back 15
  let y := back 2
  back 16 + (rotate x 7 ^^^ rotate x 18 ^^^ (x >>> 3)) + back 7 +
    (rotate y 17 ^^^ rotate y 19 ^^^ (y >>> 10))

def extend : (n : Nat) → Array UInt32 → Array UInt32
  | 0, w => w
  | n + 1, w => extend n (w.push (nextWord w))

/-- One round, with a word of the schedule and its constant. -/
def round (s : State) (w : UInt32 × UInt32) : State :=
  let t1 := s.h + (rotate s.e 6 ^^^ rotate s.e 11 ^^^ rotate s.e 25) +
    ((s.e &&& s.f) ^^^ (~~~s.e &&& s.g)) + w.1 + w.2
  let t2 := (rotate s.a 2 ^^^ rotate s.a 13 ^^^ rotate s.a 22) +
    ((s.a &&& s.b) ^^^ (s.a &&& s.c) ^^^ (s.b &&& s.c))
  ⟨t1 + t2, s.a, s.b, s.c, s.d + t1, s.e, s.f, s.g⟩

def compress (s : State) (block : List UInt8) : State :=
  let schedule := extend 48 (readWords block).toArray
  s.add ((schedule.zip roundConstants).foldl round s)

/-- The state after the blocks of a byte string; a rest that fills no block is dropped. -/
def absorb (s : State) (bytes : List UInt8) : State :=
  match h : bytes.drop 63 with
  | [] => s
  | _ :: rest =>
    have : rest.length < bytes.length := by
      have := congrArg List.length h
      simp only [List.length_drop, List.length_cons] at this
      omega
    absorb (compress s (bytes.take 64)) rest
termination_by bytes.length

/-! ### Digests -/

/-- A message, then the byte 80, zeros, and the number of its bits in eight bytes. -/
def pad (message : List UInt8) : List UInt8 :=
  message ++ 0x80 :: List.replicate ((119 - message.length % 64) % 64) 0 ++
    bigEndian 8 (8 * message.length)

def digest (message : List UInt8) : List UInt8 :=
  (absorb .initial (pad message)).words.flatMap fun w => bigEndian 4 w.toNat

end Bytecode.Sha256
