import Bytecode.Opcode

/-!
Building code arrays. Branches name labels, which may be marked before or after them; `finish`
fills the offsets in. The first misuse is kept and wins over everything later.
-/
namespace Bytecode

inductive BuilderError where
  | labelTwice (label : String)
  | wrongForm (op : Opcode) (pos : Nat)
  | byteRange (value : Int)
  | shortRange (value : Int)
  | slotRange (op : Opcode) (index : Int)
  | incrementRange (index delta : Int)
  | poolRange (op : Opcode) (index : Int)
  | emptyTable
  | keyCount (keys targets : Nat)
  | keyOrder
  | interfaceRange (index count : Int)
  | dynamicRange (index : Int)
  | multiArrayRange (index dims : Int)
  | undefinedLabel (label : String)
  | farBranch (label : String) (pos : Nat)
  deriving DecidableEq, Repr

def BuilderError.message : BuilderError → String
  | .labelTwice label => "label " ++ Text.quote label ++ " defined twice"
  | .wrongForm op pos => op.name ++ s!" at {pos}: wrong operand form"
  | .byteRange value => s!"bipush operand {value} out of range"
  | .shortRange value => s!"sipush operand {value} out of range"
  | .slotRange op index => op.name ++ s!": local index {index} out of range"
  | .incrementRange index delta => s!"iinc {index} {delta} out of range"
  | .poolRange op index => op.name ++ s!": pool index {index} out of range"
  | .emptyTable => "tableswitch needs at least one target"
  | .keyCount keys targets => s!"lookupswitch: {keys} keys but {targets} targets"
  | .keyOrder => "lookupswitch: keys must be strictly ascending"
  | .interfaceRange index count => s!"invokeinterface #{index} {count} out of range"
  | .dynamicRange index => s!"invokedynamic #{index} out of range"
  | .multiArrayRange index dims => s!"multianewarray #{index} {dims} out of range"
  | .undefinedLabel label => "undefined label " ++ Text.quote label
  | .farBranch label pos =>
    "branch to " ++ Text.quote label ++ s!" at {pos} does not fit in 16 bits; use goto_w"

/-- A branch operand that waits for its label: where the operand stands, the offset it is relative
to, and whether it has four bytes. -/
structure Fixup where
  operand : Nat
  base : Nat
  label : String
  wide : Bool
  deriving DecidableEq, Repr

/-- A code array in the making. Labels and fixups stand in the order in which they came. -/
structure CodeBuilder where
  code : Array UInt8 := #[]
  labels : Array (String × Nat) := #[]
  fixups : Array Fixup := #[]
  fault : Option BuilderError := none
  deriving DecidableEq, Repr

def lowByte (n : Int) : UInt8 :=
  (n % 256).toNat.toUInt8

/-- The two low bytes of an integer, the greater first. -/
def bytes2 (n : Int) : List UInt8 :=
  [lowByte (n / 256), lowByte n]

/-- The four low bytes of an integer, the greatest first. -/
def bytes4 (n : Int) : List UInt8 :=
  [lowByte (n / 16777216), lowByte (n / 65536), lowByte (n / 256), lowByte n]

def fitsSigned (bits : Nat) (n : Int) : Bool :=
  -(Nat.pow 2 (bits - 1) : Nat) ≤ n && n < (Nat.pow 2 (bits - 1) : Nat)

def fitsUnsigned (bits : Nat) (n : Int) : Bool :=
  0 ≤ n && n < (Nat.pow 2 bits : Nat)

def fitsPool (n : Int) : Bool :=
  0 < n && n ≤ 0xffff

/-- The pattern of a signed number of 32 bits, which wraps around. -/
def wrap32 (n : Int) : Int :=
  (n + 2147483648) % 4294967296 - 2147483648

namespace CodeBuilder

def empty : CodeBuilder := {}

/-- The length so far, which is the offset of the next instruction. -/
def length (b : CodeBuilder) : Nat :=
  b.code.size

def offset? (b : CodeBuilder) (label : String) : Option Nat :=
  (b.labels.find? (·.1 == label)).map Prod.snd

/-- Records a misuse, unless there was one before. -/
def fail (b : CodeBuilder) (e : BuilderError) : CodeBuilder :=
  { b with fault := b.fault <|> some e }

def mark (b : CodeBuilder) (label : String) : CodeBuilder :=
  match b.offset? label with
  | some _ => b.fail (.labelTwice label)
  | none => { b with labels := b.labels.push (label, b.length) }

def raw (b : CodeBuilder) (bytes : List UInt8) : CodeBuilder :=
  { b with code := b.code ++ bytes.toArray }

/-- Goes on with `next` if the operands of an opcode have one of the given layouts. -/
@[macro_inline]
def checked (b : CodeBuilder) (op : Opcode) (formats : List Format)
    (next : CodeBuilder) : CodeBuilder :=
  if op.format ∈ formats then next else b.fail (.wrongForm op b.length)

def emit (b : CodeBuilder) (op : Opcode) : CodeBuilder :=
  b.checked op [.none] (b.raw [op.byte])

/-- `bipush` or `sipush`. -/
def immediate (b : CodeBuilder) (op : Opcode) (value : Int) : CodeBuilder :=
  b.checked op [.byte, .short] <|
    if op = .bipush then
      if fitsSigned 8 value then b.raw [op.byte, lowByte value] else b.fail (.byteRange value)
    else if fitsSigned 16 value then b.raw (op.byte :: bytes2 value)
    else b.fail (.shortRange value)

/-- A local variable instruction, widened if the index needs two bytes. -/
def slot (b : CodeBuilder) (op : Opcode) (index : Int) : CodeBuilder :=
  b.checked op [.slot] <|
    if fitsUnsigned 8 index then b.raw [op.byte, lowByte index]
    else if fitsUnsigned 16 index then b.raw (Opcode.wide.byte :: op.byte :: bytes2 index)
    else b.fail (.slotRange op index)

/-- `iinc`, widened if an operand needs two bytes. -/
def increment (b : CodeBuilder) (index delta : Int) : CodeBuilder :=
  if fitsUnsigned 8 index && fitsSigned 8 delta then
    b.raw [Opcode.iinc.byte, lowByte index, lowByte delta]
  else if fitsUnsigned 16 index && fitsSigned 16 delta then
    b.raw (Opcode.wide.byte :: Opcode.iinc.byte :: (bytes2 index ++ bytes2 delta))
  else b.fail (.incrementRange index delta)

/-- An instruction with a pool index; `ldc` becomes `ldc_w` if the index needs two bytes. -/
def const (b : CodeBuilder) (op : Opcode) (index : Int) : CodeBuilder :=
  b.checked op [.const8, .const16] <|
    if !fitsPool index then b.fail (.poolRange op index)
    else if op = .ldc then
      if index ≤ 0xff then b.raw [op.byte, lowByte index]
      else b.raw (Opcode.ldcW.byte :: bytes2 index)
    else b.raw (op.byte :: bytes2 index)

def hole (b : CodeBuilder) (base : Nat) (label : String) (wide : Bool) : CodeBuilder :=
  let pos := b.length
  { b with
    code := b.code ++ if wide then #[0, 0, 0, 0] else #[0, 0]
    fixups := b.fixups.push ⟨pos, base, label, wide⟩ }

def branch (b : CodeBuilder) (op : Opcode) (label : String) : CodeBuilder :=
  b.checked op [.branch, .branchWide] <|
    let base := b.length
    (b.raw [op.byte]).hole base label (op.format = .branchWide)

def pad (b : CodeBuilder) : CodeBuilder :=
  b.raw (List.replicate ((4 - b.length % 4) % 4) 0)

/-- A jump table for the matches from `low` on; the greatest match wraps around past 32 bits. -/
def tableSwitch (b : CodeBuilder) (low : Int) (otherwise : String) (targets : List String) :
    CodeBuilder :=
  if targets.isEmpty then b.fail .emptyTable
  else
    let base := b.length
    let head := ((b.raw [Opcode.tableswitch.byte]).pad.hole base otherwise true).raw
      (bytes4 low ++ bytes4 (wrap32 (low + (targets.length - 1 : Nat))))
    targets.foldl (fun b label => b.hole base label true) head

def strictlyAscending : List Int → Bool
  | a :: b :: rest => a < b && strictlyAscending (b :: rest)
  | _ => true

def lookupSwitch (b : CodeBuilder) (otherwise : String) (keys : List Int)
    (targets : List String) : CodeBuilder :=
  if keys.length ≠ targets.length then b.fail (.keyCount keys.length targets.length)
  else if !strictlyAscending keys then b.fail .keyOrder
  else
    let base := b.length
    let head := ((b.raw [Opcode.lookupswitch.byte]).pad.hole base otherwise true).raw
      (bytes4 keys.length)
    (keys.zip targets).foldl (fun b (key, label) => (b.raw (bytes4 key)).hole base label true) head

def invokeInterface (b : CodeBuilder) (index count : Int) : CodeBuilder :=
  if fitsPool index && fitsUnsigned 8 count then
    b.raw (Opcode.invokeinterface.byte :: (bytes2 index ++ [lowByte count, 0]))
  else b.fail (.interfaceRange index count)

def invokeDynamic (b : CodeBuilder) (index : Int) : CodeBuilder :=
  if fitsPool index then b.raw (Opcode.invokedynamic.byte :: (bytes2 index ++ [0, 0]))
  else b.fail (.dynamicRange index)

def newArray (b : CodeBuilder) (code : UInt8) : CodeBuilder :=
  b.raw [Opcode.newarray.byte, code]

def multiNewArray (b : CodeBuilder) (index dims : Int) : CodeBuilder :=
  if fitsPool index && fitsUnsigned 8 dims then
    b.raw (Opcode.multianewarray.byte :: (bytes2 index ++ [lowByte dims]))
  else b.fail (.multiArrayRange index dims)

/-! ### Filling the branches in -/

def patch (code : Array UInt8) (pos : Nat) (bytes : List UInt8) : Array UInt8 :=
  (bytes.zipIdx pos).foldl (fun code (byte, i) => code.setIfInBounds i byte) code

def resolve (b : CodeBuilder) (code : Array UInt8) (f : Fixup) :
    Except BuilderError (Array UInt8) :=
  match b.offset? f.label with
  | none => .error (.undefinedLabel f.label)
  | some target =>
    let offset := (target : Int) - f.base
    if f.wide then .ok (patch code f.operand (bytes4 offset))
    else if fitsSigned 16 offset then .ok (patch code f.operand (bytes2 offset))
    else .error (.farBranch f.label f.base)

def finish (b : CodeBuilder) : Except BuilderError (Array UInt8) :=
  match b.fault with
  | some e => .error e
  | none => b.fixups.foldlM b.resolve b.code

end CodeBuilder

end Bytecode
