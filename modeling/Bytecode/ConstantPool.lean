import Bytecode.Ieee

/-!
Constant pools: tables of literals and of references to classes and members. Index 0 is never
used, and a long or double takes two indices, of which the second is not usable.

* `ConstantPool.add` appends an entry, or shares the first equal one;
* `ConstantPool.className`, `memberRef`, …: what an index refers to, with an error if the entry
  there is of the wrong kind.

Numbers are shared by their value as numbers: the two zeros of a floating-point format share an
entry, and an entry that is no number is never shared.
-/
namespace Bytecode

inductive Tag where
  | utf8
  | integer
  | float
  | long
  | double
  | classRef
  | string
  | fieldref
  | methodref
  | interfaceMethodref
  | nameAndType
  | methodHandle
  | methodType
  | invokeDynamic
  deriving DecidableEq, Repr

namespace Tag

/-- The number of a kind in class files. -/
def code : Tag → UInt8
  | .utf8 => 1
  | .integer => 3
  | .float => 4
  | .long => 5
  | .double => 6
  | .classRef => 7
  | .string => 8
  | .fieldref => 9
  | .methodref => 10
  | .interfaceMethodref => 11
  | .nameAndType => 12
  | .methodHandle => 15
  | .methodType => 16
  | .invokeDynamic => 18

def name : Tag → String
  | .utf8 => "Utf8"
  | .integer => "Integer"
  | .float => "Float"
  | .long => "Long"
  | .double => "Double"
  | .classRef => "Class"
  | .string => "String"
  | .fieldref => "Fieldref"
  | .methodref => "Methodref"
  | .interfaceMethodref => "InterfaceMethodref"
  | .nameAndType => "NameAndType"
  | .methodHandle => "MethodHandle"
  | .methodType => "MethodType"
  | .invokeDynamic => "InvokeDynamic"

/-- The name of an optional kind; an index without an entry has the kind numbered 0. -/
def nameOrNone : Option Tag → String
  | some t => t.name
  | none => "Tag(0)"

def listText (tags : List Tag) : String :=
  "[" ++ " ".intercalate (tags.map name) ++ "]"

end Tag

/-- A string of one character for each byte. -/
def byteText (bytes : List UInt8) : String :=
  String.ofList (bytes.map Char.ofUInt8)

/-- A text of bytes: a string, or bytes that are no well-formed text. -/
inductive Utf8Text where
  | string (text : String)
  | malformed (bytes : List UInt8) (isMalformed : String.fromUTF8? ⟨bytes.toArray⟩ = none)
  deriving DecidableEq, Repr

namespace Utf8Text

instance : Coe String Utf8Text := ⟨string⟩

def ofBytes (bytes : List UInt8) : Utf8Text :=
  match h : String.fromUTF8? ⟨bytes.toArray⟩ with
  | some text => .string text
  | none => .malformed bytes h

def bytes : Utf8Text → List UInt8
  | .string text => text.toUTF8.toList
  | .malformed bytes _ => bytes

/-- A text as a string, each byte of a malformed one as the character of that number. -/
def toString : Utf8Text → String
  | .string text => text
  | .malformed bytes _ => byteText bytes

end Utf8Text

/-- An entry. Floating-point literals are bit patterns. -/
inductive Constant where
  | utf8 (text : Utf8Text)
  | integer (value : Int32)
  | float (bits : UInt32)
  | long (value : Int64)
  | double (bits : UInt64)
  | classRef (name : Nat)
  | string (text : Nat)
  | fieldref (owner nameAndType : Nat)
  | methodref (owner nameAndType : Nat)
  | interfaceMethodref (owner nameAndType : Nat)
  | nameAndType (name desc : Nat)
  | methodHandle (kind reference : Int)
  | methodType (desc : Nat)
  | invokeDynamic (bootstrap : Int) (nameAndType : Nat)
  deriving DecidableEq, Repr

namespace Constant

def tag : Constant → Tag
  | .utf8 _ => .utf8
  | .integer _ => .integer
  | .float _ => .float
  | .long _ => .long
  | .double _ => .double
  | .classRef _ => .classRef
  | .string _ => .string
  | .fieldref _ _ => .fieldref
  | .methodref _ _ => .methodref
  | .interfaceMethodref _ _ => .interfaceMethodref
  | .nameAndType _ _ => .nameAndType
  | .methodHandle _ _ => .methodHandle
  | .methodType _ => .methodType
  | .invokeDynamic _ _ => .invokeDynamic

/-- The two numbers of an entry that refers to others; a missing one is 0. -/
def references : Constant → Int × Int
  | .classRef name => (name, 0)
  | .string text => (text, 0)
  | .fieldref owner nat => (owner, nat)
  | .methodref owner nat => (owner, nat)
  | .interfaceMethodref owner nat => (owner, nat)
  | .nameAndType name desc => (name, desc)
  | .methodHandle kind reference => (kind, reference)
  | .methodType desc => (desc, 0)
  | .invokeDynamic bootstrap nat => (bootstrap, nat)
  | _ => (0, 0)

def isWide : Constant → Bool
  | .long _ | .double _ => true
  | _ => false

/-- May two entries share an index? -/
def shares : Constant → Constant → Bool
  | .float a, .float b => FloatFormat.binary32.same a.toNat b.toNat
  | .double a, .double b => FloatFormat.binary64.same a.toNat b.toNat
  | a, b => a == b

end Constant

inductive PoolError where
  | range (index : Int)
  | kind (index : Int) (found : Tag) (wanted : List Tag)
  deriving DecidableEq, Repr

def PoolError.message : PoolError → String
  | .range index => s!"bad constant pool reference: index {index} out of range"
  | .kind index found wanted =>
    s!"bad constant pool reference: index {index} is {found.name}, want {Tag.listText wanted}"

/-- The entries of a table with their places, the last one first. -/
def places (slots : Array (Option Constant)) : List (Constant × Nat) :=
  (slots.toList.zipIdx.filterMap fun (c, i) => c.map (·, i)).reverse

theorem places_push (slots : Array (Option Constant)) (c : Option Constant) :
    places (slots.push c) = c.toList.map (·, slots.size) ++ places slots := by
  cases c <;> simp [places, List.zipIdx_append]

/-- A constant pool. An index without an entry holds `none`: index 0 and the one after a long or
double. The entries are kept with their indices once more, to be looked up. -/
structure ConstantPool where
  slots : Array (Option Constant)
  index : List (Constant × Nat)
  indexed : index = places slots
  deriving DecidableEq, Repr

/-- The texts of a reference to a field or method. -/
structure MemberTexts where
  tag : Tag
  owner : Utf8Text
  name : Utf8Text
  descriptor : Utf8Text
  deriving DecidableEq, Repr

structure MemberRef where
  tag : Tag
  owner : String
  name : String
  descriptor : String
  deriving DecidableEq, Repr

/-- A reference as messages show it; the descriptor of a field stands apart. -/
def MemberRef.text (r : MemberRef) : String :=
  r.owner ++ "." ++ r.name ++ (if r.tag = .fieldref then " " else "") ++ r.descriptor

namespace ConstantPool

def empty : ConstantPool := ⟨#[none], [], rfl⟩

instance : Inhabited ConstantPool := ⟨empty⟩

/-- One more than the greatest index. -/
def size (p : ConstantPool) : Nat :=
  p.slots.size

def entry? (p : ConstantPool) (i : Int) : Option Constant :=
  match i with
  | .ofNat n => (p.slots[n]?).join
  | .negSucc _ => none

def tag? (p : ConstantPool) (i : Int) : Option Tag :=
  (p.entry? i).map Constant.tag

def get (p : ConstantPool) (i : Int) : Except PoolError Constant :=
  match p.entry? i with
  | some c => .ok c
  | none => .error (.range i)

/-! ### Adding -/

/-- The pool with one entry more. -/
def append (p : ConstantPool) (c : Constant) : ConstantPool where
  slots := if c.isWide then (p.slots.push (some c)).push none else p.slots.push (some c)
  index := (c, p.size) :: p.index
  indexed := by
    rw [p.indexed]
    split <;> simp [places_push, size]

def add (p : ConstantPool) (c : Constant) : ConstantPool × Nat :=
  match p.index.find? fun (e, _) => c.shares e with
  | some (_, i) => (p, i)
  | none => (p.append c, p.size)

def addUtf8 (p : ConstantPool) (text : Utf8Text) : ConstantPool × Nat :=
  p.add (.utf8 text)

def addInteger (p : ConstantPool) (v : Int32) : ConstantPool × Nat :=
  p.add (.integer v)

def addFloat (p : ConstantPool) (bits : UInt32) : ConstantPool × Nat :=
  p.add (.float bits)

def addLong (p : ConstantPool) (v : Int64) : ConstantPool × Nat :=
  p.add (.long v)

def addDouble (p : ConstantPool) (bits : UInt64) : ConstantPool × Nat :=
  p.add (.double bits)

/-- A class, by its name or its array descriptor. -/
def addClass (p : ConstantPool) (name : Utf8Text) : ConstantPool × Nat :=
  let (p, n) := p.addUtf8 name
  p.add (.classRef n)

def addString (p : ConstantPool) (text : Utf8Text) : ConstantPool × Nat :=
  let (p, n) := p.addUtf8 text
  p.add (.string n)

def addNameAndType (p : ConstantPool) (name desc : Utf8Text) : ConstantPool × Nat :=
  let (p, n) := p.addUtf8 name
  let (p, d) := p.addUtf8 desc
  p.add (.nameAndType n d)

/-- A class and a name with a type, as every member reference needs them. -/
def addMember (make : Nat → Nat → Constant) (p : ConstantPool) (owner name desc : Utf8Text) :
    ConstantPool × Nat :=
  let (p, c) := p.addClass owner
  let (p, n) := p.addNameAndType name desc
  p.add (make c n)

def addFieldref : ConstantPool → (owner name desc : Utf8Text) → ConstantPool × Nat :=
  addMember .fieldref

def addMethodref : ConstantPool → (owner name desc : Utf8Text) → ConstantPool × Nat :=
  addMember .methodref

def addInterfaceMethodref : ConstantPool → (owner name desc : Utf8Text) → ConstantPool × Nat :=
  addMember .interfaceMethodref

def addMethodType (p : ConstantPool) (desc : Utf8Text) : ConstantPool × Nat :=
  let (p, d) := p.addUtf8 desc
  p.add (.methodType d)

def addMethodHandle (p : ConstantPool) (kind reference : Int) : ConstantPool × Nat :=
  p.add (.methodHandle kind reference)

def addInvokeDynamic (p : ConstantPool) (bootstrap : Int) (name desc : Utf8Text) :
    ConstantPool × Nat :=
  let (p, n) := p.addNameAndType name desc
  p.add (.invokeDynamic bootstrap n)

/-! ### Reading -/

/-- The error for an entry `c` at index `i` that is none of the wanted kinds. -/
def wrongKind {α : Type} (i : Int) (c : Constant) (wanted : List Tag) : Except PoolError α :=
  .error (.kind i c.tag wanted)

def utf8 (p : ConstantPool) (i : Int) : Except PoolError Utf8Text := do
  match ← p.get i with
  | .utf8 text => .ok text
  | c => wrongKind i c [.utf8]

def classText (p : ConstantPool) (i : Int) : Except PoolError Utf8Text := do
  match ← p.get i with
  | .classRef name => p.utf8 name
  | c => wrongKind i c [.classRef]

def nameAndTypeTexts (p : ConstantPool) (i : Int) : Except PoolError (Utf8Text × Utf8Text) := do
  match ← p.get i with
  | .nameAndType name desc => return (← p.utf8 name, ← p.utf8 desc)
  | c => wrongKind i c [.nameAndType]

def memberTexts (p : ConstantPool) (i : Int) : Except PoolError MemberTexts := do
  let read (tag : Tag) (owner nat : Nat) : Except PoolError MemberTexts := do
    let owner ← p.classText owner
    let (name, descriptor) ← p.nameAndTypeTexts nat
    return { tag, owner, name, descriptor }
  match ← p.get i with
  | .fieldref owner nat => read .fieldref owner nat
  | .methodref owner nat => read .methodref owner nat
  | .interfaceMethodref owner nat => read .interfaceMethodref owner nat
  | c => wrongKind i c [.fieldref, .methodref, .interfaceMethodref]

def callSiteTexts (p : ConstantPool) (i : Int) : Except PoolError (Utf8Text × Utf8Text) := do
  match ← p.get i with
  | .invokeDynamic _ nat => p.nameAndTypeTexts nat
  | c => wrongKind i c [.invokeDynamic]

def stringValue (p : ConstantPool) (i : Int) : Except PoolError Utf8Text := do
  match ← p.get i with
  | .string text => p.utf8 text
  | c => wrongKind i c [.string]

/-! ### Reading strings -/

def className (p : ConstantPool) (i : Int) : Except PoolError String :=
  return (← p.classText i).toString

def nameAndType (p : ConstantPool) (i : Int) : Except PoolError (String × String) := do
  let (name, desc) ← p.nameAndTypeTexts i
  return (name.toString, desc.toString)

def memberRef (p : ConstantPool) (i : Int) : Except PoolError MemberRef := do
  let r ← p.memberTexts i
  return ⟨r.tag, r.owner.toString, r.name.toString, r.descriptor.toString⟩

def invokeDynamic (p : ConstantPool) (i : Int) : Except PoolError (String × String) := do
  let (name, desc) ← p.callSiteTexts i
  return (name.toString, desc.toString)

end ConstantPool

end Bytecode
