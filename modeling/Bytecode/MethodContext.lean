import Bytecode.Lattice
import Bytecode.Rejection

/-!
What the checks of an instruction know apart from its frame: the classes, and the method it stands
in. Here are the members that operands name, and whether the class of the method may use them.
-/
namespace Bytecode

structure MethodContext where
  hierarchy : Hierarchy
  owner : Class
  method : Method
  type : MethodType

structure ResolvedField where
  ref : MemberRef
  field : Field
  decl : Class
  type : ValueType

/-- A method that an operand names, with the class that declares it; a call site has none. -/
structure ResolvedMethod where
  ref : MemberRef
  type : MethodType
  target : Option (Method × Class)

def Instruction.reject {α : Type} (ins : Instruction) (c : Complaint) : Except Failure α :=
  .error (.rejected (.instruction ins c))

/-- An answer or a failure that is no verdict. -/
def known {α : Type} (r : Except InternalError α) : Except Failure α :=
  r.mapError .internal

namespace MethodContext

def pool (c : MethodContext) : ConstantPool :=
  c.owner.pool

/-! ### Operands -/

def classOperand (c : MethodContext) (ins : Instruction) : Except InternalError String :=
  (c.pool.className ins.index).mapError (.poolOperand ins)

def classType (ins : Instruction) (name : String) : Except InternalError ValueType :=
  (ValueType.ofClassRef name).mapError (.descriptorOperand ins)

def fieldOperand (c : MethodContext) (ins : Instruction) :
    Except InternalError (MemberRef × FieldType) := do
  let ref ← (c.pool.memberRef ins.index).mapError (.poolOperand ins)
  let type ← (FieldType.parse ref.descriptor).mapError (.descriptorOperand ins)
  return (ref, type)

/-- The method or call site that an instruction names, with its type. A call site has no owner. -/
def methodOperand (c : MethodContext) (ins : Instruction) (kind : InvokeKind) :
    Except InternalError (MemberRef × MethodType) := do
  let ref ← (if kind = .ofDynamic then
      (c.pool.invokeDynamic ins.index).map fun (name, descriptor) =>
        { tag := .invokeDynamic, owner := "", name, descriptor }
    else c.pool.memberRef ins.index).mapError (.poolOperand ins)
  let type ← (MethodType.parse ref.descriptor).mapError (.descriptorOperand ins)
  return (ref, type)

/-! ### Access -/

def loadClass (c : MethodContext) (name : String) : Except InternalError Class :=
  (c.hierarchy.lookup name).mapError (.loadClass name)

/-- May the method use a class? An array is used through its element class. -/
def checkClassAccess (c : MethodContext) (ins : Instruction) (name : String) :
    Except Failure Unit := do
  match (← known (classType ins name)).elementClass? with
  | none => return
  | some element =>
    let cls ← known (c.loadClass element)
    if !cls.access.has .publicBit && cls.package ≠ c.owner.package then
      ins.reject (.classAccess element c.owner.name)

def memberAccessible (c : MethodContext) (decl : Class) (access : AccessFlags) :
    Except Failure Bool :=
  if access.has .publicBit then .ok true
  else if access.has .privateBit then .ok (decl.name = c.owner.name)
  else if decl.package = c.owner.package then .ok true
  else if access.has .protectedBit then known (c.hierarchy.knownSubclass c.owner.name decl.name)
  else .ok false

/-- A missing member rejects the code; a missing class is no verdict. -/
def resolved {α : Type} (ins : Instruction) (r : Except HierarchyError α) : Except Failure α :=
  r.mapError fun e =>
    if e.isMissingMember then .rejected (.instruction ins (.missing e))
    else .internal (.memberOperand ins e)

def resolveField (c : MethodContext) (ins : Instruction) : Except Failure ResolvedField := do
  let (ref, type) ← known (c.fieldOperand ins)
  c.checkClassAccess ins ref.owner
  let (field, decl) ← resolved ins (c.hierarchy.resolveField ref.owner ref.name ref.descriptor)
  if !(← c.memberAccessible decl field.access) then
    ins.reject (.fieldAccess decl.name field.name field.access c.owner.name)
  return { ref, field, decl, type := .ofFieldType type }

/-- The method that an instruction names. Methods of arrays are those of the root class, and a
constructor is never inherited. -/
def resolveMethod (c : MethodContext) (ins : Instruction) (kind : InvokeKind) :
    Except Failure ResolvedMethod := do
  let (ref, type) ← known (c.methodOperand ins kind)
  if kind = .ofDynamic then return { ref, type, target := none }
  let array := ValueType.namesArray ref.owner
  let owner := if array then objectClass else ref.owner
  if !array then c.checkClassAccess ins owner
  let (method, decl) ← resolved ins <|
    if ref.tag = .interfaceMethodref then
      c.hierarchy.resolveInterfaceMethod owner ref.name ref.descriptor
    else c.hierarchy.resolveMethod owner ref.name ref.descriptor
  if ref.name = constructorName ∧ decl.name ≠ owner then
    ins.reject (.noConstructor owner ref.descriptor)
  if !(← c.memberAccessible decl method.access) then
    ins.reject (.methodAccess decl.name method.text method.access c.owner.name)
  return { ref, type, target := some (method, decl) }

/-- A protected member of a superclass in another package may only be used on objects of the class
of the method or below it. Copies of arrays are exempt. -/
def checkProtectedReceiver (c : MethodContext) (ins : Instruction) (decl : Class)
    (access : AccessFlags) (name : String) (receiver : ValueType) : Except Failure Unit := do
  if !access.has .protectedBit || decl.package = c.owner.package || decl.name = c.owner.name then
    return
  if !(← known (c.hierarchy.knownSubclass c.owner.name decl.name)) then return
  if receiver = .null || receiver.isUninitializedThis then return
  if receiver.isArray && name = "clone" then return
  if receiver.isClass then
    if ← known (c.hierarchy.knownSubclass receiver.name c.owner.name) then return
  ins.reject (.protectedAccess decl.name name receiver c.owner.name)

end MethodContext

end Bytecode
