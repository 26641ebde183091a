import Bytecode.Instruction

/-!
Reading code arrays. `decode` turns bytes into instructions in the order of their offsets. It
checks the encoding only: that operands are complete, that switches are laid out as they must be,
that branches meet instructions and that control cannot run off the end.
-/
namespace Bytecode

inductive CodeError where
  | empty
  | undefinedOpcode (byte : UInt8) (pos : Nat)
  | truncated (pos : Nat)
  | interfaceZero (pos : Nat)
  | dynamicZero (pos : Nat)
  | tableBounds (pos : Nat) (low high : Int)
  | pairCount (pos : Nat)
  | unsortedKeys (pos : Nat)
  | notWidened (pos : Nat) (byte : UInt8)
  | branchTarget (ins : Instruction) (target : Int)
  | fallsOff (last : Instruction)
  deriving DecidableEq, Repr

def CodeError.message (e : CodeError) : String :=
  "malformed code: " ++ match e with
  | .empty => "empty code array"
  | .undefinedOpcode byte pos =>
    "undefined opcode 0x" ++ (Text.hexByte byte).map Char.toUpper ++ s!" at {pos}"
  | .truncated pos => s!"truncated instruction at {pos}"
  | .interfaceZero pos => s!"invokeinterface at {pos}: fourth operand byte must be zero"
  | .dynamicZero pos => s!"invokedynamic at {pos}: trailing operand bytes must be zero"
  | .tableBounds pos low high => s!"tableswitch at {pos}: low {low} > high {high}"
  | .pairCount pos => s!"lookupswitch at {pos}: negative pair count"
  | .unsortedKeys pos => s!"lookupswitch at {pos}: keys are not sorted"
  | .notWidened pos byte => s!"wide at {pos} cannot modify " ++ Opcode.byteName byte
  | .branchTarget ins target =>
    ins.text ++ s!": branch target {target} is not an instruction"
  | .fallsOff last => last.text ++ ": control falls off the end of the code"

/-! ### Numbers in bytes -/

/-- The number of two bytes, the greater part first. -/
def word2 (a b : UInt8) : Nat :=
  a.toNat * 256 + b.toNat

def word4 (a b c d : UInt8) : Nat :=
  (word2 a b) * 65536 + word2 c d

/-- A number of `bits` bits read with its sign. -/
def signed (bits n : Nat) : Int :=
  if n < Nat.pow 2 (bits - 1) then n else (n : Int) - (Nat.pow 2 bits : Nat)

def readWords? : (n : Nat) → List UInt8 → Option (List Int)
  | 0, _ => some []
  | n + 1, a :: b :: c :: d :: rest =>
    (readWords? n rest).map (signed 32 (word4 a b c d) :: ·)
  | _ + 1, _ => none

def readPairs? : (n : Nat) → List UInt8 → Option (List (Int × Int))
  | 0, _ => some []
  | n + 1, a :: b :: c :: d :: e :: f :: g :: h :: rest =>
    (readPairs? n rest).map ((signed 32 (word4 a b c d), signed 32 (word4 e f g h)) :: ·)
  | _ + 1, _ => none

def ascending : List Int → Bool
  | a :: b :: rest => a < b && ascending (b :: rest)
  | _ => true

/-! ### One instruction -/

def decodeOperand (pos : Nat) (format : Format) (rest : List UInt8) : Except CodeError Operand :=
  match format, rest with
  | .none, _ => .ok .none
  | .byte, a :: _ => .ok (.immediate (signed 8 a.toNat))
  | .short, a :: b :: _ => .ok (.immediate (signed 16 (word2 a b)))
  | .slot, a :: _ => .ok (.slot a.toNat)
  | .const8, a :: _ => .ok (.const a.toNat)
  | .const16, a :: b :: _ => .ok (.const (word2 a b))
  | .branch, a :: b :: _ => .ok (.target (pos + signed 16 (word2 a b)))
  | .branchWide, a :: b :: c :: d :: _ => .ok (.target (pos + signed 32 (word4 a b c d)))
  | .iinc, a :: b :: _ => .ok (.increment a.toNat (signed 8 b.toNat))
  | .newArray, a :: _ => .ok (.element a)
  | .invokeInterface, a :: b :: count :: zero :: _ =>
    if zero = 0 then .ok (.interfaceCall (word2 a b) count.toNat) else .error (.interfaceZero pos)
  | .invokeDynamic, a :: b :: c :: d :: _ =>
    if word2 c d = 0 then .ok (.dynamicCall (word2 a b)) else .error (.dynamicZero pos)
  | .multiNewArray, a :: b :: dims :: _ => .ok (.multiArray (word2 a b) dims.toNat)
  | .tableSwitch, rest =>
    match readWords? 3 (rest.drop (switchPadding pos)) with
    | some [otherwise, low, high] =>
      if low > high then .error (.tableBounds pos low high)
      else match readWords? (high - low + 1).toNat (rest.drop (switchPadding pos + 12)) with
        | some targets => .ok (.table (pos + otherwise) low (targets.map (pos + ·)))
        | none => .error (.truncated pos)
    | _ => .error (.truncated pos)
  | .lookupSwitch, rest =>
    match readWords? 2 (rest.drop (switchPadding pos)) with
    | some [otherwise, count] =>
      if count < 0 then .error (.pairCount pos)
      else match readPairs? count.toNat (rest.drop (switchPadding pos + 8)) with
        | some pairs =>
          if ascending (pairs.map Prod.fst) then
            .ok (.lookup (pos + otherwise) (pairs.map fun (key, offset) => (key, pos + offset)))
          else .error (.unsortedKeys pos)
        | none => .error (.truncated pos)
    | _ => .error (.truncated pos)
  | _, _ => .error (.truncated pos)

/-- The instruction at offset `pos` that the widening mark modifies, from the bytes after the
mark. -/
def decodeWide (pos : Nat) (rest : List UInt8) : Except CodeError Instruction :=
  match rest with
  | [] => .error (.truncated pos)
  | byte :: rest =>
    match Opcode.ofByte? byte with
    | none => .error (.notWidened pos byte)
    | some op =>
      match op.format, rest with
      | .iinc, a :: b :: c :: d :: _ =>
        .ok ⟨pos, op, true, .increment (word2 a b) (signed 16 (word2 c d))⟩
      | .slot, a :: b :: _ => .ok ⟨pos, op, true, .slot (word2 a b)⟩
      | .iinc, _ => .error (.truncated pos)
      | .slot, _ => .error (.truncated pos)
      | _, _ => .error (.notWidened pos byte)

def decodeAt (pos : Nat) (code : List UInt8) : Except CodeError Instruction :=
  match code with
  | [] => .error (.truncated pos)
  | byte :: rest =>
    match Opcode.ofByte? byte with
    | none => .error (.undefinedOpcode byte pos)
    | some op =>
      if op.format = .wide then decodeWide pos rest
      else (decodeOperand pos op.format rest).map fun operand => ⟨pos, op, false, operand⟩

/-! ### A code array -/

/-- The instructions from offset `pos` on, after those already read. -/
def decodeFrom (read : Array Instruction) (pos : Nat) (code : List UInt8) :
    Except CodeError (Array Instruction) :=
  match code with
  | [] => .ok read
  | byte :: rest =>
    match decodeAt pos (byte :: rest) with
    | .error e => .error e
    | .ok ins =>
      have := ins.size_pos
      decodeFrom (read.push ins) (pos + ins.size) ((byte :: rest).drop ins.size)
termination_by code.length

def codeEnd (code : Array Instruction) : Nat :=
  (code.back?.map Instruction.next).getD 0

/-- The number of the instruction that begins at each offset of the code. -/
def indexOffsets (code : Array Instruction) : Array (Option Nat) :=
  code.toList.zipIdx.foldl (fun index (ins, i) => index.setIfInBounds ins.pos (some i))
    (Array.replicate (codeEnd code) none)

def instructionAt? (index : Array (Option Nat)) : Int → Option Nat
  | .ofNat pos => index.getD pos none
  | .negSucc _ => none

def isStart (index : Array (Option Nat)) (target : Int) : Bool :=
  (instructionAt? index target).isSome

def strayBranch? (index : Array (Option Nat)) (code : Array Instruction) :
    Option (Instruction × Int) :=
  code.findSome? fun ins =>
    (ins.branchTargets.find? fun target => !isStart index target).map (ins, ·)

def decode (bytes : List UInt8) : Except CodeError (Array Instruction) :=
  if bytes.isEmpty then .error .empty
  else do
    let code ← decodeFrom #[] 0 bytes
    match strayBranch? (indexOffsets code) code with
    | some (ins, target) => .error (.branchTarget ins target)
    | none =>
      match code.back? with
      | some last => if last.op.endsFlow then .ok code else .error (.fallsOff last)
      | none => .error .empty

end Bytecode
