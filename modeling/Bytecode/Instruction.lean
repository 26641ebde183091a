import Bytecode.Opcode

/-!
Instructions: an opcode at an offset of a code array, with its operands.

Branch targets are offsets in the code array. The size of an instruction follows from its operands
and, for the padded switches, from its offset.
-/
namespace Bytecode

inductive Operand where
  | none
  | immediate (value : Int)
  | slot (index : Nat)
  | const (index : Nat)
  | target (offset : Int)
  | increment (index : Nat) (delta : Int)
  /-- A jump table for the matches `low`, `low + 1`, … -/
  | table (otherwise low : Int) (targets : List Int)
  | lookup (otherwise : Int) (pairs : List (Int × Int))
  | interfaceCall (index count : Nat)
  | dynamicCall (index : Nat)
  | element (code : UInt8)
  | multiArray (index dims : Nat)
  deriving DecidableEq, Repr

/-- An instruction. The flag says that it is encoded under the widening mark. -/
structure Instruction where
  pos : Nat
  op : Opcode
  wide : Bool := false
  operand : Operand := .none
  deriving DecidableEq, Repr

/-- The zero bytes that follow a switch opcode at an offset, up to a multiple of four. -/
def switchPadding (pos : Nat) : Nat :=
  (4 - (pos + 1) % 4) % 4

namespace Instruction

def action (ins : Instruction) : Action :=
  ins.op.action

def operandSize (ins : Instruction) : Nat :=
  match ins.operand with
  | .none => 0
  | .immediate _ => if ins.op.format = .short then 2 else 1
  | .slot _ => if ins.wide then 2 else 1
  | .const _ => if ins.op.format = .const8 then 1 else 2
  | .target _ => if ins.op.format = .branchWide then 4 else 2
  | .increment _ _ => if ins.wide then 4 else 2
  | .table _ _ targets => switchPadding ins.pos + 12 + 4 * targets.length
  | .lookup _ pairs => switchPadding ins.pos + 8 + 8 * pairs.length
  | .interfaceCall _ _ => 4
  | .dynamicCall _ => 4
  | .element _ => 1
  | .multiArray _ _ => 3

def size (ins : Instruction) : Nat :=
  (if ins.wide then 2 else 1) + ins.operandSize

theorem size_pos (ins : Instruction) : 0 < ins.size := by
  unfold size
  split <;> omega

def next (ins : Instruction) : Nat :=
  ins.pos + ins.size

def index (ins : Instruction) : Nat :=
  match ins.operand with
  | .slot i | .const i | .increment i _ | .interfaceCall i _ | .dynamicCall i | .multiArray i _ => i
  | _ => ins.op.impliedSlot?.getD 0

def constant (ins : Instruction) : Int :=
  match ins.operand with
  | .immediate value => value
  | .increment _ delta => delta
  | _ => 0

def count (ins : Instruction) : Nat :=
  match ins.operand with
  | .interfaceCall _ count => count
  | .multiArray _ dims => dims
  | _ => 0

def elementCode (ins : Instruction) : UInt8 :=
  match ins.operand with
  | .element code => code
  | _ => 0

def cases (ins : Instruction) : List (Int × Int) :=
  match ins.operand with
  | .table _ low targets => targets.zipIdx.map fun (target, i) => (low + i, target)
  | .lookup _ pairs => pairs
  | _ => []

/-- Every explicit branch target; that of a switch's other cases comes first. -/
def branchTargets (ins : Instruction) : List Int :=
  match ins.operand with
  | .target offset => [offset]
  | .table otherwise _ targets => otherwise :: targets
  | .lookup otherwise pairs => otherwise :: pairs.map Prod.snd
  | _ => []

def operandText (ins : Instruction) : String :=
  let switchText (otherwise : Int) : String :=
    s!" default:{otherwise}" ++
      String.join (ins.cases.map fun (key, target) => s!" {key}:{target}")
  match ins.operand with
  | .none => ""
  | .immediate value => s!" {value}"
  | .slot index => s!" {index}"
  | .const index => s!" #{index}"
  | .target offset => s!" {offset}"
  | .increment index delta => s!" {index} {delta}"
  | .table otherwise _ _ => switchText otherwise
  | .lookup otherwise _ => switchText otherwise
  | .interfaceCall index count => s!" #{index} {count}"
  | .dynamicCall index => s!" #{index}"
  | .element code => " " ++ elementDescriptor code
  | .multiArray index dims => s!" #{index} {dims}"

/-- An instruction as messages show it: offset, mnemonic, operands. -/
def text (ins : Instruction) : String :=
  s!"{ins.pos}: " ++ ins.op.name ++ ins.operandText

end Instruction

end Bytecode
