import Bytecode.AccessFlags
import Bytecode.ConstantPool
import Bytecode.Text.Blank

/-!
Classes with their fields and methods. Names are in internal form, with slashes between packages.
-/
namespace Bytecode

/-! ### Well-known names -/

def objectClass : String := "java/lang/Object"
def throwableClass : String := "java/lang/Throwable"
def stringClass : String := "java/lang/String"
def classClass : String := "java/lang/Class"
def methodTypeClass : String := "java/lang/invoke/MethodType"
def methodHandleClass : String := "java/lang/invoke/MethodHandle"
def nullPointerClass : String := "java/lang/NullPointerException"

def constructorName : String := "<init>"

def initializerName : String := "<clinit>"

/-- The package of a class: its name up to the last slash. -/
def packageOf (name : String) : String :=
  match Text.cutLast? '/' name.toList with
  | some (package, _) => String.ofList package
  | none => ""

/-! ### Members -/

structure Field where
  name : String
  descriptor : String
  access : AccessFlags
  deriving DecidableEq, Repr

/-- An entry of an exception table. The protected bytes run from `start` up to `stop`, and
`catchIndex` is the pool index of a class, or 0 if everything is caught. -/
structure Handler where
  start : Int
  stop : Int
  target : Int
  catchIndex : Int
  deriving DecidableEq, Repr

structure Method where
  name : String
  descriptor : String
  access : AccessFlags
  maxStack : Int := 0
  maxLocals : Int := 0
  code : List UInt8 := []
  handlers : List Handler := []
  deriving DecidableEq, Repr

namespace Method

def hasCode (m : Method) : Bool :=
  !m.access.has .abstractBit && !m.access.has .nativeBit

def isStatic (m : Method) : Bool :=
  m.access.has .staticBit

def isConstructor (m : Method) : Bool :=
  m.name == constructorName

def text (m : Method) : String :=
  m.name ++ m.descriptor

end Method

/-! ### Classes -/

/-- A class or interface. Only the root of a hierarchy has no superclass. -/
structure Class where
  name : String
  super : Option String
  interfaces : List String := []
  access : AccessFlags := .publicBit ∪ .synchronizedBit
  fields : List Field := []
  methods : List Method := []
  pool : ConstantPool := .empty
  deriving DecidableEq, Repr

namespace Class

def isInterface (c : Class) : Bool :=
  c.access.has .interfaceBit

def package (c : Class) : String :=
  packageOf c.name

def superName (c : Class) : String :=
  c.super.getD ""

def field? (c : Class) (name desc : String) : Option Field :=
  c.fields.find? fun f => f.name == name && f.descriptor == desc

def method? (c : Class) (name desc : String) : Option Method :=
  c.methods.find? fun m => m.name == name && m.descriptor == desc

end Class

end Bytecode
