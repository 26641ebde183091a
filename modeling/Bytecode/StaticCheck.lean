import Bytecode.ClassFile
import Bytecode.Descriptor
import Bytecode.Instruction.Decode

/-!
The checks that data flow relies on: the code decodes, every operand refers to something of the
right shape, and the exception table meets instructions. `Method.prepare` gives the decoded code
and the type of the method, or the first check that fails.
-/
namespace Bytecode

inductive StaticCheck where
  | descriptor
  | limits
  | decoding
  | localIndices
  | poolReferences
  | invocationNames
  | arrayCreation
  | exceptionTable
  | subroutineTargets
  deriving DecidableEq, Repr

def StaticCheck.name : StaticCheck → String
  | .descriptor => "method descriptor"
  | .limits => "code limits"
  | .decoding => "code decoding"
  | .localIndices => "local variable indices"
  | .poolReferences => "constant pool references"
  | .invocationNames => "method invocation names"
  | .arrayCreation => "array creation"
  | .exceptionTable => "exception table"
  | .subroutineTargets => "subroutine targets"

inductive StaticFault where
  | descriptor (cause : DescriptorError)
  | constructorResult (method : String)
  | maxStack (n : Int)
  | maxLocals (n : Int)
  | argumentSlots (limit : Int) (slots : Nat)
  | codeLength (n : Nat)
  | code (cause : CodeError)
  | localIndex (ins : Instruction) (last : Nat) (limit : Int)
  | noConstant (ins : Instruction)
  | constantKind (ins : Instruction) (found : Tag) (wanted : List Tag)
  | operandDescriptor (ins : Instruction) (cause : DescriptorError)
  | zeroCount (ins : Instruction)
  | dynamicName (ins : Instruction) (name : String)
  | invokesInitializer (ins : Instruction)
  | invokesConstructor (ins : Instruction)
  | constructorNotVoid (ins : Instruction)
  | manyDimensions (ins : Instruction)
  | noDimensions (ins : Instruction)
  | dimensions (ins : Instruction) (name : String)
  | elementCode (ins : Instruction)
  | firstTarget (ins : Instruction)
  | handlerStart (index : Nat) (offset : Int)
  | handlerStop (index : Nat) (offset : Int)
  | handlerRange (index : Nat) (start stop : Int)
  | handlerTarget (index : Nat) (offset : Int)
  | handlerCatch (index : Nat) (cause : PoolError)
  deriving DecidableEq, Repr

namespace StaticFault

def check : StaticFault → StaticCheck
  | .descriptor _ | .constructorResult _ => .descriptor
  | .maxStack _ | .maxLocals _ | .argumentSlots .. | .codeLength _ => .limits
  | .code _ => .decoding
  | .localIndex .. => .localIndices
  | .noConstant _ | .constantKind .. | .operandDescriptor .. | .zeroCount _ => .poolReferences
  | .dynamicName .. | .invokesInitializer _ | .invokesConstructor _ | .constructorNotVoid _ =>
    .invocationNames
  | .manyDimensions _ | .noDimensions _ | .dimensions .. | .elementCode _ => .arrayCreation
  | .firstTarget _ => .subroutineTargets
  | .handlerStart .. | .handlerStop .. | .handlerRange .. | .handlerTarget .. | .handlerCatch .. =>
    .exceptionTable

def detail : StaticFault → String
  | .descriptor cause => cause.message
  | .constructorResult method => "constructor " ++ method ++ " must return void"
  | .maxStack n => s!"max_stack {n} out of range"
  | .maxLocals n => s!"max_locals {n} out of range"
  | .argumentSlots limit slots =>
    s!"max_locals {limit} is smaller than the {slots} argument slots"
  | .codeLength n => s!"code length {n} exceeds 65535"
  | .code cause => cause.message
  | .localIndex ins last limit => ins.text ++ s!" uses local {last} but max_locals is {limit}"
  | .noConstant ins => ins.text ++ s!": constant pool index {ins.index} is invalid"
  | .constantKind ins found wanted =>
    ins.text ++ s!": constant {ins.index} is a " ++ found.name ++ ", want one of " ++
      Tag.listText wanted
  | .operandDescriptor ins cause => ins.text ++ ": " ++ cause.message
  | .zeroCount ins => ins.text ++ ": count must not be zero"
  | .dynamicName ins name => ins.text ++ " names " ++ name
  | .invokesInitializer ins => ins.text ++ " invokes a class initializer"
  | .invokesConstructor ins => ins.text ++ ": only invokespecial may invoke a constructor"
  | .constructorNotVoid ins => ins.text ++ ": constructor must return void"
  | .manyDimensions ins => ins.text ++ " creates an array of more than 255 dimensions"
  | .noDimensions ins => ins.text ++ s!" has {ins.count} dimensions"
  | .dimensions ins name => ins.text ++ s!" creates {ins.count} dimensions of " ++ name
  | .elementCode ins => ins.text ++ s!" has invalid element code {ins.elementCode.toNat}"
  | .firstTarget ins => ins.text ++ " targets the first instruction"
  | .handlerStart index offset => s!"handler {index}: start {offset} is not an instruction"
  | .handlerStop index offset => s!"handler {index}: end {offset} is not an instruction"
  | .handlerRange index start stop => s!"handler {index}: empty range {start}..{stop}"
  | .handlerTarget index offset => s!"handler {index}: target {offset} is not an instruction"
  | .handlerCatch index cause => s!"handler {index}: " ++ cause.message

def message (f : StaticFault) : String :=
  f.check.name ++ ": " ++ f.detail

end StaticFault

/-! ### Operands -/

namespace ConstantPool

def expectTag (pool : ConstantPool) (ins : Instruction) (tags : List Tag) :
    Except StaticFault Unit :=
  match pool.tag? ins.index with
  | none => .error (.noConstant ins)
  | some tag => if tag ∈ tags then .ok () else .error (.constantKind ins tag tags)

/-- The member at an index; a member without names stands for one that cannot be read, and no
descriptor is empty. -/
def memberOrNone (pool : ConstantPool) (i : Int) : MemberRef :=
  (pool.memberRef i).toOption.getD { tag := .fieldref, owner := "", name := "", descriptor := "" }

def checkField (pool : ConstantPool) (ins : Instruction) : Except StaticFault Unit := do
  pool.expectTag ins [.fieldref]
  let ref := pool.memberOrNone ins.index
  let _ ← (FieldType.parse ref.descriptor).mapError (.operandDescriptor ins)
  let _ ← (FieldType.parseClass ref.owner).mapError (.operandDescriptor ins)

def invokeTags : InvokeKind → List Tag
  | .ofVirtual => [.methodref]
  | .ofInterface => [.interfaceMethodref]
  | _ => [.methodref, .interfaceMethodref]

def checkDynamic (pool : ConstantPool) (ins : Instruction) : Except StaticFault Unit := do
  pool.expectTag ins [.invokeDynamic]
  let (name, desc) := (pool.invokeDynamic ins.index).toOption.getD ("", "")
  if name = constructorName ∨ name = initializerName then .error (.dynamicName ins name)
  let _ ← (MethodType.parse desc).mapError (.operandDescriptor ins)

/-- The operand of an invocation: a method with a readable type and owner. Only a special invocation
may name a constructor, and none a class initializer. -/
def checkInvoke (pool : ConstantPool) (ins : Instruction) (kind : InvokeKind) :
    Except StaticFault Unit := do
  pool.expectTag ins (invokeTags kind)
  if kind = .ofInterface ∧ ins.count = 0 then .error (.zeroCount ins)
  let ref := pool.memberOrNone ins.index
  let type ← (MethodType.parse ref.descriptor).mapError (.operandDescriptor ins)
  if ref.name = initializerName then .error (.invokesInitializer ins)
  if ref.name = constructorName then
    if kind ≠ .ofSpecial then .error (.invokesConstructor ins)
    if type.result.isSome then .error (.constructorNotVoid ins)
  let _ ← (FieldType.parseClass ref.owner).mapError (.operandDescriptor ins)

def checkClass (pool : ConstantPool) (ins : Instruction) :
    Except StaticFault (String × FieldType) := do
  pool.expectTag ins [.classRef]
  let name := (pool.className ins.index).toOption.getD ""
  let type ← (FieldType.parseClass name).mapError (.operandDescriptor ins)
  return (name, type)

end ConstantPool

def checkSlot (maxLocals : Int) (ins : Instruction) (size : Nat) : Except StaticFault Unit :=
  let last := ins.index + size - 1
  if last ≥ maxLocals then .error (.localIndex ins last maxLocals) else .ok ()

def Kind.size : Kind → Nat
  | .numeric .long | .numeric .double => 2
  | _ => 1

def checkOperands (pool : ConstantPool) (maxLocals : Int) (ins : Instruction) :
    Except StaticFault Unit :=
  match ins.action with
  | .load kind _ | .store kind _ => checkSlot maxLocals ins kind.size
  | .iinc | .ret => checkSlot maxLocals ins 1
  | .loadConst false =>
    pool.expectTag ins [.integer, .float, .string, .classRef, .methodType, .methodHandle]
  | .loadConst true => pool.expectTag ins [.long, .double]
  | .field _ => pool.checkField ins
  | .invoke .ofDynamic => pool.checkDynamic ins
  | .invoke kind => pool.checkInvoke ins kind
  | .allocate | .checkCast | .instanceOf => (pool.checkClass ins).map fun _ => ()
  | .newRefArray => do
    let (_, type) ← pool.checkClass ins
    if type.dims ≥ 255 then .error (.manyDimensions ins)
  | .newMultiArray => do
    let (name, type) ← pool.checkClass ins
    if ins.count < 1 then .error (.noDimensions ins)
    if ins.count > type.dims then .error (.dimensions ins name)
  | .newArray =>
    if (elementDescriptor? ins.elementCode).isNone then .error (.elementCode ins) else .ok ()
  | .jsr => if ins.branchTargets.head? = some 0 then .error (.firstTarget ins) else .ok ()
  | _ => .ok ()

def checkHandler (pool : ConstantPool) (index : Array (Option Nat)) (codeLength : Nat)
    (h : Handler) (i : Nat) : Except StaticFault Unit := do
  if !isStart index h.start then .error (.handlerStart i h.start)
  if h.stop ≠ codeLength && !isStart index h.stop then .error (.handlerStop i h.stop)
  if h.start ≥ h.stop then .error (.handlerRange i h.start h.stop)
  if !isStart index h.target then .error (.handlerTarget i h.target)
  if h.catchIndex ≠ 0 then
    let _ ← (pool.className h.catchIndex).mapError (.handlerCatch i)

/-! ### Methods -/

/-- What the checks hand on: the decoded code and the type of the method. -/
structure PreparedCode where
  code : Array Instruction
  type : MethodType

def Method.incomingSlots (m : Method) (type : MethodType) : Nat :=
  type.argumentSlots + if m.isStatic then 0 else 1

def Method.checkLimits (m : Method) (type : MethodType) : Except StaticFault Unit :=
  if m.maxStack < 0 ∨ m.maxStack > 0xffff then .error (.maxStack m.maxStack)
  else if m.maxLocals < 0 ∨ m.maxLocals > 0xffff then .error (.maxLocals m.maxLocals)
  else if m.maxLocals < m.incomingSlots type then
    .error (.argumentSlots m.maxLocals (m.incomingSlots type))
  else if m.code.length > 0xffff then .error (.codeLength m.code.length)
  else .ok ()

def Method.prepare (m : Method) (pool : ConstantPool) : Except StaticFault PreparedCode := do
  let type ← (MethodType.parse m.descriptor).mapError .descriptor
  if m.isConstructor && type.result.isSome then .error (.constructorResult m.text)
  m.checkLimits type
  let code ← (decode m.code).mapError .code
  code.toList.forM (checkOperands pool m.maxLocals)
  let index := indexOffsets code
  m.handlers.zipIdx.forM fun (h, i) => checkHandler pool index (codeEnd code) h i
  return ⟨code, type⟩

end Bytecode
