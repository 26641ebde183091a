import Bytecode.Descriptor
import Bytecode.Opcode

/-!
The types of values at verification time.

An object is uninitialized from its allocation to the call of its constructor; the marker of such
an object names its class and the offset of the allocation. The receiver of a constructor has a
marker of its own. A return address is what a subroutine call leaves on the stack.

* `ofFieldType`: what a value of a declared type is;
* `component?`, `elementClass?`, `arrayOf`: arrays, which are references by their descriptor.
-/
namespace Bytecode

/-- The type of a value, or `unknown` where no usable value is. -/
inductive ValueType where
  | unknown
  | int
  | long
  | float
  | double
  | null
  /-- A class by its name or an array by its descriptor. -/
  | reference (name : String)
  | uninitialized (name : String) (site : Int)
  | uninitializedThis (name : String)
  | returnAddress (target : Int)
  deriving DecidableEq, Repr, Inhabited

namespace ValueType

def ofNumeric : Numeric → ValueType
  | .int => .int
  | .long => .long
  | .float => .float
  | .double => .double

def size : ValueType → Nat
  | .long | .double => 2
  | _ => 1

/-- An initialized object, or null. -/
def isReference : ValueType → Bool
  | .reference _ | .null => true
  | _ => false

def isUninitialized : ValueType → Bool
  | .uninitialized .. | .uninitializedThis _ => true
  | _ => false

def isUninitializedThis : ValueType → Bool
  | .uninitializedThis _ => true
  | _ => false

/-- An object, initialized or not, or null. -/
def isObject (t : ValueType) : Bool :=
  t.isReference || t.isUninitialized

def namesArray (name : String) : Bool :=
  name.toList.head? == some '['

def isArray : ValueType → Bool
  | .reference name => namesArray name
  | _ => false

/-- An object that is no array. -/
def isClass : ValueType → Bool
  | .reference name => !namesArray name
  | _ => false

def name : ValueType → String
  | .reference name | .uninitialized name _ | .uninitializedThis name => name
  | _ => ""

/-- What a marker becomes once the constructor has run. -/
def initialized (t : ValueType) : ValueType :=
  .reference t.name

def descriptor (t : ValueType) : String :=
  if t.isArray then t.name else "L" ++ t.name ++ ";"

def text : ValueType → String
  | .unknown => "unknown"
  | .int => "int"
  | .long => "long"
  | .float => "float"
  | .double => "double"
  | .null => "null"
  | .reference name => name
  | .uninitialized name site => s!"uninitialized({name}@{site})"
  | .uninitializedThis name => s!"uninitializedThis({name})"
  | .returnAddress target => s!"returnAddress({target})"

instance : ToString ValueType := ⟨text⟩

/-! ### Declared types -/

/-- The value of a declared type. The small integers are ints. -/
def ofFieldType (t : FieldType) : ValueType :=
  if t.isArray then .reference t.descriptor
  else match t.element with
    | .boolean | .byte | .char | .short | .int => .int
    | .long => .long
    | .float => .float
    | .double => .double
    | .object name => .reference name

def ofResult : Option FieldType → ValueType
  | some t => ofFieldType t
  | none => .unknown

def ofDescriptor (desc : String) : Except DescriptorError ValueType :=
  (FieldType.parse desc).map ofFieldType

def ofClassRef (name : String) : Except DescriptorError ValueType :=
  (FieldType.parseClass name).map ofFieldType

/-! ### Arrays -/

def arrayOf : ValueType → ValueType
  | .reference name => .reference ("[" ++ (reference name).descriptor)
  | .int => .reference "[I"
  | .long => .reference "[J"
  | .float => .reference "[F"
  | .double => .reference "[D"
  | _ => .unknown

/-- The declared type of the components of an array, if its descriptor can be read. -/
def component? (t : ValueType) : Option FieldType :=
  if t.isArray then (FieldType.parse (String.ofList t.name.toList.tail)).toOption else none

/-- The class of a reference, or of the elements of an array; primitive arrays have none. -/
def elementClass? (t : ValueType) : Option String :=
  if t.isClass then some t.name
  else match FieldType.parse t.name with
    | .ok ⟨.object name, _⟩ => some name
    | _ => none

/-- A declared type does not get longer as a value. -/
theorem length_name_ofFieldType (t : FieldType) :
    (ofFieldType t).name.length ≤ t.descriptor.length := by
  unfold ofFieldType
  split
  · exact Nat.le_refl _
  · split <;> simp_all [name, FieldType.descriptor, BaseType.descriptor, String.length_append]
    omega

/-- The name of a component is shorter than the name of its array. -/
theorem length_name_component {t : ValueType} {c : FieldType} (h : t.component? = some c) :
    (ofFieldType c).name.length < t.name.length := by
  unfold component? at h
  split at h
  · next array =>
    cases hp : FieldType.parse (String.ofList t.name.toList.tail) with
    | error e => simp [hp, Except.toOption] at h
    | ok c' =>
      simp only [hp, Except.toOption, Option.some.injEq] at h
      subst h
      have eq := congrArg String.length (FieldType.descriptor_of_parse hp)
      have le := length_name_ofFieldType c'
      have pos : t.name.toList ≠ [] := by
        intro nil
        cases t <;> simp_all [isArray, namesArray, name]
      have := List.length_pos_iff.2 pos
      simp only [String.length_ofList, List.length_tail, String.length_toList] at eq this
      omega
  · cases h

/-! ### Lists of types -/

def listText (types : List ValueType) : String :=
  "[" ++ ", ".intercalate (types.map text) ++ "]"

end ValueType

end Bytecode
