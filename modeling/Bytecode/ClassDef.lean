import Bytecode.Assembly
import Bytecode.ClassFile

/-!
Declarations of classes, with the code of methods in assembly text, and the classes they describe
(`ClassDef.build`).
-/
namespace Bytecode

structure FieldDef where
  name : String := ""
  desc : String := ""
  flags : List String := []
  deriving DecidableEq, Repr

/-- An entry of an exception table, in labels of the code. No type, or `any`, catches everything. -/
structure HandlerDef where
  start : String := ""
  stop : String := ""
  handler : String := ""
  type : String := ""
  deriving DecidableEq, Repr

/-- The text of a method's code, with the line that it is declared at. The text of a block begins
on the next line. -/
structure CodeDef where
  text : String := ""
  line : Int := 0
  block : Bool := false
  deriving DecidableEq, Repr

def CodeDef.firstLine (c : CodeDef) : Nat :=
  (max 1 (if c.block then c.line + 1 else c.line)).toNat

/-- The declaration of a method, with the verdict that is expected of it. -/
structure MethodDef where
  name : String := ""
  desc : String := ""
  flags : List String := []
  maxStack : Int := 0
  maxLocals : Int := 0
  code : CodeDef := {}
  handlers : List HandlerDef := []
  expect : String := ""
  deriving DecidableEq, Repr

structure ClassDef where
  name : String := ""
  super : String := ""
  interfaces : List String := []
  flags : List String := []
  fields : List FieldDef := []
  methods : List MethodDef := []
  deriving DecidableEq, Repr

/-! ### Errors -/

inductive MethodDefError where
  | flag (name : String)
  | codeForbidden (access : AccessFlags)
  | codeMissing
  | syntaxError (error : Assembly.SyntaxError)
  | undefinedLabel (label : String)
  deriving DecidableEq, Repr

def MethodDefError.message : MethodDefError → String
  | .flag name => AccessFlags.unknownName name
  | .codeForbidden access => access.text ++ " method has code"
  | .codeMissing => "no code; mark the method native or abstract"
  | .syntaxError error => error.message
  | .undefinedLabel label =>
    "exception handler refers to undefined label " ++ Text.quote label

inductive ClassDefError where
  | noName
  | classFlag (name flag : String)
  | fieldFlag (owner name flag : String)
  | fieldDescriptor (owner name : String) (error : DescriptorError)
  | method (owner name desc : String) (error : MethodDefError)
  deriving DecidableEq, Repr

def ClassDefError.message : ClassDefError → String
  | .noName => "class without a name"
  | .classFlag name flag => "class " ++ name ++ ": " ++ AccessFlags.unknownName flag
  | .fieldFlag owner name flag =>
    "field " ++ owner ++ "." ++ name ++ ": " ++ AccessFlags.unknownName flag
  | .fieldDescriptor owner name error =>
    "field " ++ owner ++ "." ++ name ++ ": " ++ error.message
  | .method owner name desc error =>
    "method " ++ owner ++ "." ++ name ++ desc ++ ": " ++ error.message

/-! ### Building -/

/-- The exception table entry that a declaration describes, and the pool with its class. -/
def HandlerDef.build (d : HandlerDef) (labels : List (String × Nat)) (pool : ConstantPool) :
    Except MethodDefError (Handler × ConstantPool) := do
  let offset (label : String) : Except MethodDefError Int :=
    match labels.lookup label with
    | some n => .ok n
    | none => .error (.undefinedLabel label)
  let start ← offset d.start
  let stop ← offset d.stop
  let target ← offset d.handler
  if d.type = "" ∨ d.type = "any" then return (⟨start, stop, target, 0⟩, pool)
  let (pool, index) := pool.addClass d.type
  return (⟨start, stop, target, index⟩, pool)

def buildHandlers (labels : List (String × Nat)) (pool : ConstantPool) :
    List HandlerDef → Except MethodDefError (List Handler × ConstantPool)
  | [] => .ok ([], pool)
  | d :: rest => do
    let (handler, pool) ← d.build labels pool
    let (handlers, pool) ← buildHandlers labels pool rest
    return (handler :: handlers, pool)

/-- The method that a declaration describes, and the pool with its constants. -/
def MethodDef.build (d : MethodDef) (pool : ConstantPool) :
    Except MethodDefError (Method × ConstantPool) := do
  let access ← (AccessFlags.ofNames d.flags).mapError .flag
  let method : Method :=
    { name := d.name, descriptor := d.desc, access
      maxStack := d.maxStack, maxLocals := d.maxLocals }
  if !method.hasCode then
    if d.code.text ≠ "" ∨ d.handlers ≠ [] then .error (.codeForbidden access)
    else return (method, pool)
  else if d.code.text = "" then .error .codeMissing
  else
    match Assembly.assemble d.code.text pool with
    | (.error e, _) =>
      .error (.syntaxError { e with line := e.line + d.code.firstLine - 1 })
    | (.ok asm, pool) =>
      let (handlers, pool) ← buildHandlers asm.labels pool d.handlers
      return ({ method with code := asm.code.toList, handlers }, pool)

def FieldDef.build (d : FieldDef) (owner : String) : Except ClassDefError Field := do
  let access ← (AccessFlags.ofNames d.flags).mapError (.fieldFlag owner d.name)
  let _ ← (FieldType.parse d.desc).mapError (.fieldDescriptor owner d.name)
  return ⟨d.name, d.desc, access⟩

def buildMethods (owner : String) (pool : ConstantPool) :
    List MethodDef → Except ClassDefError (List Method × ConstantPool)
  | [] => .ok ([], pool)
  | d :: rest => do
    let (method, pool) ← (d.build pool).mapError (.method owner d.name d.desc)
    let (methods, pool) ← buildMethods owner pool rest
    return (method :: methods, pool)

/-- The class that a declaration describes. A superclass that is not named is the root class. -/
def ClassDef.build (d : ClassDef) : Except ClassDefError Class := do
  if d.name = "" then .error .noName
  let plain : Class :=
    { name := d.name
      super :=
        if d.super ≠ "" then some d.super
        else if d.name = objectClass then none
        else some objectClass
      interfaces := d.interfaces }
  let access ← if d.flags = [] then pure plain.access
    else (AccessFlags.ofNames d.flags).mapError (.classFlag d.name)
  let fields ← d.fields.mapM (·.build d.name)
  let (methods, pool) ← buildMethods d.name plain.pool d.methods
  return { plain with access, fields, methods, pool }

end Bytecode
