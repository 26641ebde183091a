import Bytecode.Frame
import Bytecode.MethodContext
import Bytecode.StaticCheck

/-!
What an instruction demands of the frame it runs on (`MethodContext.check`). First the stack must
hold the slots that it takes and have room for those that it leaves; then each value must be of the
type that it wants.
-/
namespace Bytecode

/-! ### Values on the stack -/

namespace Frame

def operand (f : Frame) (depth : Nat) : Except Failure ValueType :=
  match f.stack.values[depth]? with
  | some t => .ok t
  | none => .error (.rejected (.fewValues (depth + 1) f.stack.bottomUp))

def expect (f : Frame) (ins : Instruction) (depth : Nat) (want : ValueType) :
    Except Failure Unit := do
  let got ← f.operand depth
  if got ≠ want then ins.reject (.mismatch (.stack depth) (.type want) got)

def expectSize (f : Frame) (ins : Instruction) (depth size : Nat) : Except Failure Unit := do
  let got ← f.operand depth
  if got.size ≠ size then ins.reject (.size (.stack depth) size got)

/-- Demands an initialized object or null at a depth. -/
def expectReference (f : Frame) (ins : Instruction) (depth : Nat) :
    Except Failure ValueType := do
  let got ← f.operand depth
  if got.isUninitialized then ins.reject (.marker (.stack depth) got)
  if !got.isReference then ins.reject (.mismatch (.stack depth) .reference got)
  return got

/-- Demands an object, initialized or not, or null at a depth. -/
def expectObject (f : Frame) (ins : Instruction) (depth : Nat) : Except Failure Unit := do
  let got ← f.operand depth
  if !got.isObject then ins.reject (.mismatch (.stack depth) .reference got)

/-! ### Local variables -/

def expectSlot (f : Frame) (ins : Instruction) (size : Nat) : Except Failure Unit :=
  if ins.index + size > f.locals.size then
    ins.reject (.localRange (ins.index + size - 1) f.locals.size)
  else .ok ()

def checkLoad (f : Frame) (ins : Instruction) (kind : Kind) : Except Failure Unit := do
  f.expectSlot ins kind.size
  let got ← known (f.getLocal ins.index)
  if got = .unknown then ins.reject (.localUnusable ins.index)
  if kind.size = 2 then
    let second ← known (f.getLocal (ins.index + 1))
    if second ≠ .unknown then ins.reject (.localHalf (ins.index + 1) got second)
  match kind with
  | .reference => if !got.isObject then ins.reject (.localMismatch ins.index .reference got)
  | .numeric n =>
    if got ≠ .ofNumeric n then ins.reject (.localMismatch ins.index (.type (.ofNumeric n)) got)

def checkStore (f : Frame) (ins : Instruction) (kind : Kind) : Except Failure Unit := do
  f.expectSlot ins kind.size
  let got ← f.operand 0
  match kind, got with
  | .reference, .returnAddress _ => return
  | .reference, got =>
    if !got.isObject then ins.reject (.mismatch (.stack 0) .referenceOrReturnAddress got)
  | .numeric n, got =>
    if got ≠ .ofNumeric n then ins.reject (.mismatch (.stack 0) (.type (.ofNumeric n)) got)

def checkIncrement (f : Frame) (ins : Instruction) : Except Failure Unit := do
  f.expectSlot ins 1
  let got ← known (f.getLocal ins.index)
  if got ≠ .int then ins.reject (.localMismatch ins.index (.type .int) got)

def checkRet (f : Frame) (ins : Instruction) : Except Failure Unit := do
  f.expectSlot ins 1
  match ← known (f.getLocal ins.index) with
  | .returnAddress _ => return
  | got => ins.reject (.localMismatch ins.index .returnAddress got)

/-! ### Arrays -/

/-- The component descriptors that an array access accepts; none stands for references. -/
def elementDescriptors : ElementAccess → List String
  | .int => ["I"]
  | .long => ["J"]
  | .float => ["F"]
  | .double => ["D"]
  | .reference => []
  | .byte => ["B", "Z"]
  | .char => ["C"]
  | .short => ["S"]

/-- The value of the elements that an array access moves; that of references depends on the
array. -/
def elementType : ElementAccess → ValueType
  | .long => .long
  | .float => .float
  | .double => .double
  | .reference => .unknown
  | _ => .int

def checkArray (f : Frame) (ins : Instruction) (depth : Nat) (access : ElementAccess) :
    Except Failure Unit := do
  let got ← f.operand depth
  if got = .null then return
  match got.component? with
  | none => ins.reject (.mismatch (.stack depth) .array got)
  | some component =>
    if access = .reference then
      if !component.isReference then
        ins.reject (.mismatch (.stack depth) .arrayOfReferences got)
    else if component.descriptor ∉ elementDescriptors access then
      ins.reject (.mismatch (.stack depth) (.arrayOf (elementDescriptors access)) got)

def checkArrayLoad (f : Frame) (ins : Instruction) (access : ElementAccess) :
    Except Failure Unit := do
  f.expect ins 0 .int
  f.checkArray ins 1 access

/-- Demands what a store to an array needs. Whether an object suits the array shows at run time. -/
def checkArrayStore (f : Frame) (ins : Instruction) (access : ElementAccess) :
    Except Failure Unit := do
  if access = .reference then
    let _ ← f.expectReference ins 0
  else f.expect ins 0 (elementType access)
  f.expect ins 1 .int
  f.checkArray ins 2 access

def checkArrayLength (f : Frame) (ins : Instruction) : Except Failure Unit := do
  let got ← f.operand 0
  if got ≠ .null ∧ !got.isArray then ins.reject (.mismatch (.stack 0) .array got)

/-! ### Moves on the stack -/

/-- How `dup2_x2` sees the sizes of the top entries. -/
inductive Dup2X2Form where
  | singles
  | wideOverSingles
  | singlesOverWide
  | wides
  deriving DecidableEq, Repr

def dup2X2Form? (f : Frame) : Option Dup2X2Form :=
  match f.stack.values.map ValueType.size with
  | 2 :: 2 :: _ => some .wides
  | 2 :: 1 :: 1 :: _ => some .wideOverSingles
  | 1 :: 1 :: 2 :: _ => some .singlesOverWide
  | 1 :: 1 :: 1 :: 1 :: _ => some .singles
  | _ => none

/-- Demands entries of the sizes that a move on the stack divides. -/
def checkStackOp (f : Frame) (ins : Instruction) : StackOp → Except Failure Unit
  | .pop | .dup => f.expectSize ins 0 1
  | .pop2 | .dup2 => do
    let top ← f.operand 0
    if top.size ≠ 2 then f.expectSize ins 1 1
  | .dupX1 | .swap => do
    f.expectSize ins 0 1
    f.expectSize ins 1 1
  | .dupX2 => do
    f.expectSize ins 0 1
    let next ← f.operand 1
    if next.size ≠ 2 then f.expectSize ins 2 1
  | .dup2X1 => do
    let top ← f.operand 0
    f.expectSize ins 1 1
    if top.size ≠ 2 then f.expectSize ins 2 1
  | .dup2X2 =>
    if f.dup2X2Form?.isNone then ins.reject (.stackForm f.stack.bottomUp) else .ok ()

def checkCondition (f : Frame) (ins : Instruction) : Condition → Except Failure Unit
  | .intZero => f.expect ins 0 .int
  | .intPair => do
    f.expect ins 0 .int
    f.expect ins 1 .int
  | .refPair => do
    f.expectObject ins 0
    f.expectObject ins 1
  | .refNull => (f.expectReference ins 0).map fun _ => ()

end Frame

/-! ### Instructions that need their surroundings -/

namespace MethodContext

/-- The slots that an instruction takes from the stack and leaves there. -/
def stackEffect (c : MethodContext) (ins : Instruction) : Except InternalError (Nat × Nat) := do
  match ins.action with
  | .field access =>
    let (_, type) ← c.fieldOperand ins
    match access with
    | .getStatic => return (0, type.size)
    | .putStatic => return (type.size, 0)
    | .get => return (1, type.size)
    | .put => return (1 + type.size, 0)
  | .invoke kind =>
    let (_, type) ← c.methodOperand ins kind
    let receiver := if kind = .ofStatic ∨ kind = .ofDynamic then 0 else 1
    return (type.argumentSlots + receiver, type.resultSlots)
  | .newMultiArray => return (ins.count, 1)
  | _ =>
    match ins.op.info.pops, ins.op.info.pushes with
    | some pops, some pushes => return (pops, pushes)
    | _, _ => .error (.noStackEffect ins)

/-- Demands the slots that an instruction takes, and room for those that it leaves. -/
def checkStackAccess (c : MethodContext) (ins : Instruction) (f : Frame) :
    Except Failure Unit := do
  let (pops, pushes) ← known (c.stackEffect ins)
  let used := f.stack.slots
  let growth : Int := (pushes : Int) - pops
  if pops > used then .error (.rejected (.underflow pops used f.stack.bottomUp))
  if growth + used > f.stack.max then
    .error (.rejected (.overflow growth (f.stack.max - used) f.stack.bottomUp))

def checkAssignable (c : MethodContext) (ins : Instruction) (place : Place)
    (got want : ValueType) : Except Failure Unit := do
  match want with
  | .reference _ =>
    if got.isUninitialized then ins.reject (.marker place got)
    if !(← known (c.hierarchy.assignable got want)) then
      ins.reject (.notAssignable place got want)
  | want => if got ≠ want then ins.reject (.mismatch place (.type want) got)

def checkReturn (c : MethodContext) (ins : Instruction) (value : Option Kind) (f : Frame) :
    Except Failure Unit := do
  match value, c.type.result with
  | none, some result => .error (.rejected (.returnType ins (some result)))
  | none, none =>
    if c.method.isConstructor && f.thisUninitialized then ins.reject .thisUninitialized
  | some _, none => .error (.rejected (.returnInVoid ins))
  | some .reference, some result =>
    if !result.isReference then .error (.rejected (.returnType ins (some result)))
    let got ← f.expectReference ins 0
    c.checkAssignable ins .returnedValue got (.ofFieldType result)
  | some (.numeric n), some result =>
    if ValueType.ofNumeric n ≠ .ofFieldType result then
      .error (.rejected (.returnType ins (some result)))
    f.expect ins 0 (.ofNumeric n)

def checkFieldStore (c : MethodContext) (ins : Instruction) (r : ResolvedField) (isStatic : Bool)
    (f : Frame) : Except Failure Unit := do
  let got ← f.operand 0
  c.checkAssignable ins .storedValue got r.type
  if r.field.access.has .finalBit && r.decl.name ≠ c.owner.name then
    ins.reject (.finalField r.ref r.decl.name)
  if isStatic && r.decl.isInterface && c.method.name ≠ initializerName then
    ins.reject (.interfaceField r.ref)

/-- Demands a suitable object for a field access. A constructor may assign the fields of its own
class before it calls another constructor. -/
def checkFieldObject (c : MethodContext) (ins : Instruction) (r : ResolvedField) (isPut : Bool)
    (f : Frame) : Except Failure Unit := do
  let depth := if isPut then 1 else 0
  let got ← f.operand depth
  if got = .null || (got.isUninitializedThis && isPut && r.decl.name = c.owner.name) then pure ()
  else if got.isClass then
    if !(← known (c.hierarchy.assignable got (.reference r.ref.owner))) then
      ins.reject (.wrongOwner got r.ref.owner)
  else ins.reject (.mismatch (.stack depth) .initializedObject got)
  c.checkProtectedReceiver ins r.decl r.field.access r.field.name got

def checkField (c : MethodContext) (ins : Instruction) (access : FieldAccess) (f : Frame) :
    Except Failure Unit := do
  let r ← c.resolveField ins
  let isStatic := access = .getStatic ∨ access = .putStatic
  let isPut := access = .putStatic ∨ access = .put
  if r.field.access.has .staticBit ≠ isStatic then
    ins.reject (if isStatic then .fieldNotStatic r.ref else .fieldStatic r.ref)
  if isPut then c.checkFieldStore ins r isStatic f
  if !isStatic then c.checkFieldObject ins r isPut f

def checkArguments (c : MethodContext) (ins : Instruction) (args : List FieldType) (f : Frame) :
    Except Failure Unit :=
  args.zipIdx.forM fun (arg, i) => do
    let got ← f.operand (args.length - 1 - i)
    c.checkAssignable ins (.argument i) got (.ofFieldType arg)

def checkConstructorCall (c : MethodContext) (ins : Instruction) (owner : String)
    (got : ValueType) : Except Failure Unit :=
  match got with
  | .uninitializedThis _ =>
    if owner ≠ c.owner.name ∧ owner ≠ c.owner.superName then
      ins.reject (.thisInitializer c.owner.name c.owner.superName owner)
    else .ok ()
  | .uninitialized name _ =>
    if owner ≠ name then ins.reject (.otherInitializer owner name) else .ok ()
  | got => ins.reject (.initializedTwice got)

def checkReceiver (c : MethodContext) (ins : Instruction) (kind : InvokeKind) (ref : MemberRef)
    (method : Method) (decl : Class) (got : ValueType) : Except Failure Unit := do
  if got.isUninitialized then ins.reject (.invokeMarker ref got)
  if !got.isReference then ins.reject (.mismatch .receiver .reference got)
  if got = .null then return
  if kind = .ofSpecial then
    if !(← known (c.hierarchy.assignable got (.reference c.owner.name))) then
      ins.reject (.specialReceiver got c.owner.name)
  if !(← known (c.hierarchy.assignable got (.reference ref.owner))) then
    ins.reject (.receiverType got ref.owner)
  c.checkProtectedReceiver ins decl method.access method.name got

def checkInvoke (c : MethodContext) (ins : Instruction) (kind : InvokeKind) (f : Frame) :
    Except Failure Unit := do
  let r ← c.resolveMethod ins kind
  c.checkArguments ins r.type.args f
  match r.target with
  | none => return
  | some (method, decl) =>
    if kind = .ofStatic then
      if !method.isStatic then ins.reject (.methodNotStatic decl.name method.text)
    else
      if method.isStatic then ins.reject (.methodStatic decl.name method.text)
      if kind = .ofInterface ∧ ins.count ≠ 1 + r.type.argumentSlots then
        ins.reject (.interfaceCount ins.count r.type.argumentSlots)
      let got ← f.operand r.type.args.length
      if r.ref.name = constructorName then c.checkConstructorCall ins r.ref.owner got
      else c.checkReceiver ins kind r.ref method decl got

def checkAllocate (c : MethodContext) (ins : Instruction) : Except Failure Unit := do
  let name ← known (c.classOperand ins)
  if ValueType.namesArray name then ins.reject (.newArrayType name)
  c.checkClassAccess ins name
  let cls ← known (c.loadClass name)
  if cls.isInterface then ins.reject (.newInterface name)

def checkClassOperand (c : MethodContext) (ins : Instruction) : Except Failure Unit := do
  c.checkClassAccess ins (← known (c.classOperand ins))

def checkRaise (c : MethodContext) (ins : Instruction) (f : Frame) : Except Failure Unit := do
  let got ← f.expectReference ins 0
  if got = .null then return
  if !got.isClass then ins.reject (.notThrowable got)
  if !(← known (c.hierarchy.knownSubclass got.name throwableClass)) then
    ins.reject (.notSubclass got throwableClass)

/-- Demands what an instruction wants to find, once the stack has the slots for it. -/
def checkValues (c : MethodContext) (ins : Instruction) (f : Frame) : Except Failure Unit :=
  match ins.action with
  | .nop | .constNull | .const _ | .loadConst _ | .goto | .jsr => .ok ()
  | .load kind _ => f.checkLoad ins kind
  | .store kind _ => f.checkStore ins kind
  | .arrayLoad access => f.checkArrayLoad ins access
  | .arrayStore access => f.checkArrayStore ins access
  | .stack op => f.checkStackOp ins op
  | .arith top next _ => do
    f.expect ins 0 (.ofNumeric top)
    if let some next := next then f.expect ins 1 (.ofNumeric next)
  | .iinc => f.checkIncrement ins
  | .branch condition => f.checkCondition ins condition
  | .ret => f.checkRet ins
  | .switch => f.expect ins 0 .int
  | .leave value => c.checkReturn ins value f
  | .field access => c.checkField ins access f
  | .invoke kind => c.checkInvoke ins kind f
  | .allocate => c.checkAllocate ins
  | .newArray => f.expect ins 0 .int
  | .newRefArray => do
    f.expect ins 0 .int
    c.checkClassOperand ins
  | .newMultiArray => do
    (List.range ins.count).forM fun depth => f.expect ins depth .int
    c.checkClassOperand ins
  | .arrayLength => f.checkArrayLength ins
  | .raise => c.checkRaise ins f
  | .checkCast | .instanceOf => do
    let _ ← f.expectReference ins 0
    c.checkClassOperand ins
  | .monitor => f.expectObject ins 0
  | .wide => .error (.internal (.noRule ins))

/-- Demands what an instruction needs of the frame it runs on. -/
def check (c : MethodContext) (ins : Instruction) (f : Frame) : Except Failure Unit := do
  c.checkStackAccess ins f
  c.checkValues ins f

end MethodContext

end Bytecode
