import Bytecode.Constraint

/-!
What an instruction does to a frame (`MethodContext.run`). The demands of the instruction hold
already, so only a broken promise can fail here.
-/
namespace Bytecode

namespace Frame

def push (f : Frame) (t : ValueType) : Except InternalError Frame :=
  return { f with stack := ← f.stack.push t }

def pushAll (f : Frame) (types : List ValueType) : Except InternalError Frame :=
  return { f with stack := ← f.stack.pushAll types }

def pop (f : Frame) : Except InternalError (ValueType × Frame) := do
  let (t, stack) ← f.stack.pop
  return (t, { f with stack })

def popN (f : Frame) (n : Nat) : Except InternalError Frame :=
  return { f with stack := ← f.stack.popN n }

def replace (f : Frame) (n : Nat) (t : ValueType) : Except InternalError Frame := do
  (← f.popN n).push t

/-- Pops into a local variable. A value of two slots leaves the next variable unusable. -/
def store (f : Frame) (i : Nat) : Except InternalError Frame := do
  let (t, f) ← f.pop
  f.place i t

def loadElement (f : Frame) (ins : Instruction) (access : ElementAccess) :
    Except InternalError Frame := do
  let (_, f) ← f.pop
  let (array, f) ← f.pop
  if access ≠ .reference then f.push (elementType access)
  else if array = .null then f.push .null
  else match array.component? with
    | some component => f.push (.ofFieldType component)
    | none => .error (.wrongArray ins array)

def runStackOp (f : Frame) (ins : Instruction) : StackOp → Except InternalError Frame
  | .pop => f.popN 1
  | .pop2 => do
    let (v1, f) ← f.pop
    if v1.size = 1 then f.popN 1 else return f
  | .dup => do f.push (← f.stack.peek 0)
  | .dupX1 => do
    let (v1, f) ← f.pop
    let (v2, f) ← f.pop
    f.pushAll [v1, v2, v1]
  | .dupX2 => do
    let (v1, f) ← f.pop
    let (v2, f) ← f.pop
    if v2.size = 2 then f.pushAll [v1, v2, v1]
    else
      let (v3, f) ← f.pop
      f.pushAll [v1, v3, v2, v1]
  | .dup2 => do
    let (v1, f) ← f.pop
    if v1.size = 2 then f.pushAll [v1, v1]
    else
      let (v2, f) ← f.pop
      f.pushAll [v2, v1, v2, v1]
  | .dup2X1 => do
    let (v1, f) ← f.pop
    let (v2, f) ← f.pop
    if v1.size = 2 then f.pushAll [v1, v2, v1]
    else
      let (v3, f) ← f.pop
      f.pushAll [v2, v1, v3, v2, v1]
  | .dup2X2 => do
    match f.dup2X2Form? with
    | none => .error (.wrongStack ins f.stack.bottomUp)
    | some form =>
      let (v1, f) ← f.pop
      let (v2, f) ← f.pop
      match form with
      | .wides => f.pushAll [v1, v2, v1]
      | .wideOverSingles =>
        let (v3, f) ← f.pop
        f.pushAll [v1, v3, v2, v1]
      | .singlesOverWide =>
        let (v3, f) ← f.pop
        f.pushAll [v2, v1, v3, v2, v1]
      | .singles =>
        let (v3, f) ← f.pop
        let (v4, f) ← f.pop
        f.pushAll [v2, v1, v4, v3, v2, v1]
  | .swap => do
    let (v1, f) ← f.pop
    let (v2, f) ← f.pop
    f.pushAll [v1, v2]

/-- Leaves only the thrown value. Throwing null throws an exception for it. -/
def raise (f : Frame) : Except InternalError Frame := do
  let (thrown, f) ← f.pop
  let thrown := if thrown = .null then .reference nullPointerClass else thrown
  { f with stack := f.stack.clear }.push thrown

end Frame

namespace MethodContext

def constantType (c : MethodContext) (ins : Instruction) : Except InternalError ValueType :=
  match c.pool.tag? ins.index with
  | some .integer => .ok .int
  | some .float => .ok .float
  | some .long => .ok .long
  | some .double => .ok .double
  | some .string => .ok (.reference stringClass)
  | some .classRef => .ok (.reference classClass)
  | some .methodType => .ok (.reference methodTypeClass)
  | some .methodHandle => .ok (.reference methodHandleClass)
  | tag => .error (.constantKind ins tag)

def runField (c : MethodContext) (ins : Instruction) (access : FieldAccess) (f : Frame) :
    Except InternalError Frame := do
  let (_, type) ← c.fieldOperand ins
  match access with
  | .getStatic => f.push (.ofFieldType type)
  | .putStatic => f.popN 1
  | .get => f.replace 1 (.ofFieldType type)
  | .put => f.popN 2

/-- What an invocation does. A constructor initializes its receiver everywhere in the frame. -/
def runInvoke (c : MethodContext) (ins : Instruction) (kind : InvokeKind) (f : Frame) :
    Except InternalError Frame := do
  let (ref, type) ← c.methodOperand ins kind
  let args := type.args.length
  let f ← if ref.name = constructorName then do
      let marker ← f.stack.peek args
      let f := f.initializeObject marker
      pure (if marker.isUninitializedThis then { f with thisUninitialized := false } else f)
    else pure f
  let receiver := if kind = .ofStatic ∨ kind = .ofDynamic then 0 else 1
  let f ← f.popN (args + receiver)
  match type.result with
  | some result => f.push (.ofFieldType result)
  | none => return f

def run (c : MethodContext) (ins : Instruction) (f : Frame) : Except InternalError Frame :=
  match ins.action with
  | .nop | .goto | .ret | .iinc | .leave none => .ok f
  | .constNull => f.push .null
  | .const n => f.push (.ofNumeric n)
  | .loadConst _ => do f.push (← c.constantType ins)
  | .load _ _ => do f.push (← f.getLocal ins.index)
  | .store _ _ => f.store ins.index
  | .arrayLoad access => f.loadElement ins access
  | .arrayStore _ => f.popN 3
  | .stack op => f.runStackOp ins op
  | .arith _ next result => f.replace (if next.isSome then 2 else 1) (.ofNumeric result)
  | .branch condition =>
    f.popN (match condition with
      | .intZero | .refNull => 1
      | .intPair | .refPair => 2)
  | .switch | .monitor | .leave (some _) => f.popN 1
  | .jsr => f.push (.returnAddress ins.next)
  | .field access => c.runField ins access f
  | .invoke kind => c.runInvoke ins kind f
  | .allocate => do f.push (.uninitialized (← c.classOperand ins) ins.pos)
  | .newArray => f.replace 1 (.reference ("[" ++ elementDescriptor ins.elementCode))
  | .newRefArray => do
    let f ← f.popN 1
    let element ← classType ins (← c.classOperand ins)
    f.push element.arrayOf
  | .newMultiArray => do
    let type ← classType ins (← c.classOperand ins)
    f.replace ins.count type
  | .arrayLength | .instanceOf => f.replace 1 .int
  | .raise => f.raise
  | .checkCast => do
    let type ← classType ins (← c.classOperand ins)
    f.replace 1 type
  | .wide => .error (.noRule ins)

end MethodContext

end Bytecode
