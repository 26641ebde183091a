import Bytecode.Yaml.Implicit
import Bytecode.Yaml.Node

/-!
Reading the nodes of a document as values of a type. Reading goes on after a fault, so all faults
of a document are found, in the order in which they are met; what cannot be read keeps its default.

* `asText`, `asInteger`, `asList`, `asRecord`: a node as a value of a type;
* `Fault.message`: the wording of a fault.
-/
namespace Bytecode.Yaml

inductive Fault where
  /-- A node of one type where another is wanted; a scalar has a text. -/
  | mismatch (line : Nat) (tag : String) (text : Option String) (type : String)
  | unknownField (line : Nat) (name type : String)
  | repeatedKey (line : Nat) (key : String) (first : Nat)
  deriving DecidableEq, Repr

/-- The text of a scalar in a message, cut after seven bytes if there are more than ten. -/
def excerpt (s : String) : List UInt8 :=
  let bytes := s.toUTF8.toList
  " \x60".toUTF8.toList ++
    (if bytes.length > 10 then bytes.take 7 ++ "...".toUTF8.toList else bytes) ++
    "\x60".toUTF8.toList

/-- The wording of a fault, in bytes, since a text may be cut inside a character. -/
def Fault.message : Fault → List UInt8
  | .mismatch line tag text type =>
    s!"line {line}: cannot unmarshal {tag}".toUTF8.toList ++ (text.map excerpt).getD [] ++
      s!" into {type}".toUTF8.toList
  | .unknownField line name type =>
    s!"line {line}: field {name} not found in type {type}".toUTF8.toList
  | .repeatedKey line key first =>
    (s!"line {line}: mapping key " ++ Text.quote key ++ s!" already defined at line {first}")
      |>.toUTF8.toList

/-- A value, if there is one, and the faults met. -/
structure Reading (α : Type) where
  value : Option α := none
  faults : List Fault := []

def Reading.ok {α : Type} (a : α) : Reading α := ⟨some a, []⟩

/-- What a scalar stands for; one with quotes, and a block, is always a text. -/
def implicitOf (style : Style) (text : String) : Implicit :=
  if style = .plain then .ofText text else .text

namespace Node

def text? : Node → Option String
  | .scalar _ _ text => some text
  | _ => none

def tag : Node → String
  | .scalar _ style text => (implicitOf style text).tag
  | .sequence _ _ => "!!seq"
  | .mapping _ _ => "!!map"

/-- Do two nodes count as the same key? Two collections of a kind do. -/
def sameKey : Node → Node → Bool
  | .scalar _ _ a, .scalar _ _ b => a == b
  | .sequence _ _, .sequence _ _ => true
  | .mapping _ _, .mapping _ _ => true
  | _, _ => false

def repeatedKeys : List (Node × Node) → List Fault
  | [] => []
  | (key, _) :: rest =>
    (rest.filter (key.sameKey ·.1)).map (fun (again, _) =>
        .repeatedKey again.line (again.text?.getD "") key.line) ++
      repeatedKeys rest

/-- A node that cannot be read as a value of a type. In a mapping, repeated keys are the fault. -/
def refuse {α : Type} (n : Node) (type : String) : Reading α :=
  let mismatch := [Fault.mismatch n.line n.tag n.text? type]
  match n with
  | .mapping _ entries =>
    ⟨none, if (repeatedKeys entries).isEmpty then mismatch else repeatedKeys entries⟩
  | .scalar _ style text => ⟨none, if implicitOf style text = .null then [] else mismatch⟩
  | .sequence _ _ => ⟨none, mismatch⟩

/-- A node as a text: a scalar as it is written, and null as nothing. -/
def asText (n : Node) : Reading String :=
  match n with
  | .scalar _ style text => if implicitOf style text = .null then {} else .ok text
  | n => n.refuse "string"

/-- The integer of a float that is not past the greatest one of 64 bits; one that is below the
least becomes the least. -/
def integerOfFloat? (bits : Nat) : Option Int :=
  let f := FloatFormat.binary64
  let bound : Int := Nat.pow 2 63
  if f.isNaN bits then none
  else if f.magnitude bits = f.infinity then if bits < f.signBit then none else some (-bound)
  else
    let n := f.truncate bits
    if n > bound then none else if n = bound ∨ n < -bound then some (-bound) else some n

/-- A node as an integer of 64 bits. A float loses its fraction. -/
def asInteger (n : Node) : Reading Int :=
  let value := match n with
    | .scalar _ style text => match implicitOf style text with
      | .int i => if i < (Nat.pow 2 63 : Nat) then some i else none
      | .float bits => integerOfFloat? bits
      | _ => none
    | _ => none
  match value with
  | some i => .ok i
  | none => n.refuse "int"

/-- A node as a list. Items that cannot be read are left out. -/
def asList {α : Type} (type : String) (item : Node → Reading α) (n : Node) : Reading (List α) :=
  match n with
  | .sequence _ items =>
    let readings := items.map item
    ⟨some (readings.filterMap (·.value)), readings.flatMap (·.faults)⟩
  | n => n.refuse ("[]" ++ type)

end Node

/-- A field of a record: its name, and how its node changes the record. -/
structure RecordField (σ : Type) where
  name : String
  read : Node → σ → σ × List Fault

/-- The field of a name whose value is read by `read` and stored by `store`. -/
def RecordField.of {σ α : Type} (name : String) (read : Node → Reading α) (store : σ → α → σ) :
    RecordField σ :=
  { name
    read := fun n s =>
      let r := read n
      ((r.value.map (store s)).getD s, r.faults) }

/-- Reads one entry of a mapping into a record of a type. -/
def readEntry {σ : Type} (type : String) (fields : List (RecordField σ))
    (state : σ × List Fault) (entry : Node × Node) : σ × List Fault :=
  let (s, faults) := state
  let key := entry.1.asText
  let faults := faults ++ key.faults
  match key.value with
  | none => (s, faults)
  | some name => match fields.find? (·.name == name) with
    | some field =>
      let (s, more) := field.read entry.2 s
      (s, faults ++ more)
    | none => (s, faults ++ [.unknownField entry.1.line name type])

/-- A node as a record of a type with given fields, which starts as `start`. -/
def Node.asRecord {σ : Type} (type : String) (fields : List (RecordField σ)) (start : σ)
    (n : Node) : Reading σ :=
  match n with
  | .mapping _ entries =>
    if (repeatedKeys entries).isEmpty then
      let (s, faults) := entries.foldl (readEntry type fields) (start, [])
      ⟨some s, faults⟩
    else n.refuse type
  | n => n.refuse type

end Bytecode.Yaml
