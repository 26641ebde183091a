import Bytecode.ClassFile

/-!
Sets of classes by name, and what their hierarchy says.

* `superclasses`, `isSubclassOf`, `implements`, `commonSuperclass`: the order of classes;
* `resolveField`, `resolveMethod`, `resolveInterfaceMethod`: the member that a reference means, with
  the class that declares it.

Every search visits a registered class at most once, which bounds it (`unvisited`).
-/
namespace Bytecode

/-- Why a question about classes has no answer. -/
inductive HierarchyError where
  | classNotFound (name : String)
  | superclassNotFound (name missing : String)
  | circular (name : String)
  /-- A search for a method goes round a circle of superclasses without end. -/
  | endless (name : String)
  | fieldNotFound (owner name desc : String)
  | methodNotFound (owner name desc : String)
  | interfaceMethodNotFound (owner name desc : String)
  deriving DecidableEq, Repr

namespace HierarchyError

def message : HierarchyError → String
  | .classNotFound name => "class not found: " ++ name
  | .superclassNotFound name missing =>
    "superclass of " ++ name ++ ": class not found: " ++ missing
  | .circular name => "circular class hierarchy: " ++ name
  | .endless name => "endless search above " ++ name
  | .fieldNotFound owner name desc =>
    "member not found: field " ++ owner ++ "." ++ name ++ " " ++ desc
  | .methodNotFound owner name desc =>
    "member not found: method " ++ owner ++ "." ++ name ++ desc
  | .interfaceMethodNotFound owner name desc =>
    "member not found: interface method " ++ owner ++ "." ++ name ++ desc

def isMissingMember : HierarchyError → Bool
  | .fieldNotFound .. | .methodNotFound .. | .interfaceMethodNotFound .. => true
  | _ => false

end HierarchyError

structure ClassTable where
  classes : List Class := []
  deriving Repr

namespace ClassTable

def empty : ClassTable := {}

def find? (t : ClassTable) (name : String) : Option Class :=
  t.classes.find? fun c => c.name == name

def has (t : ClassTable) (name : String) : Bool :=
  (t.find? name).isSome

def lookup (t : ClassTable) (name : String) : Except HierarchyError Class :=
  match t.find? name with
  | some c => .ok c
  | none => .error (.classNotFound name)

/-- The table with a class in it, in the place of one of the same name. -/
def register (t : ClassTable) (c : Class) : ClassTable :=
  if t.has c.name then ⟨t.classes.map fun old => if old.name == c.name then c else old⟩
  else ⟨t.classes ++ [c]⟩

def size (t : ClassTable) : Nat :=
  t.classes.length

def sorted (t : ClassTable) : List Class :=
  t.classes.mergeSort fun a b => a.name ≤ b.name

/-! ### Bounded searches -/

/-- The number of classes whose names have not been visited. -/
def unvisited (t : ClassTable) (seen : List String) : Nat :=
  t.classes.countP fun c => !seen.contains c.name

theorem unvisited_lt {t : ClassTable} {seen : List String} {name : String} {c : Class}
    (found : t.find? name = some c) (fresh : seen.contains name = false) :
    t.unvisited (name :: seen) < t.unvisited seen := by
  have mem : c ∈ t.classes := List.mem_of_find?_eq_some found
  have named : c.name = name := by simpa using List.find?_some found
  unfold unvisited
  generalize t.classes = l at mem
  induction l with
  | nil => cases mem
  | cons d l ih =>
    have le : l.countP (fun c => !(name :: seen).contains c.name) ≤
        l.countP (fun c => !seen.contains c.name) :=
      List.countP_mono_left fun x _ h => by simp_all
    rcases List.mem_cons.1 mem with rfl | mem
    · rw [List.countP_cons, List.countP_cons]
      simp only [named, fresh, List.contains_cons, BEq.rfl, Bool.true_or, Bool.not_true,
        Bool.not_false, ite_true]
      simp only [Bool.false_eq_true, ite_false]
      simp only [List.contains_cons] at le
      omega
    · have lt := ih mem
      rw [List.countP_cons, List.countP_cons]
      have mono : (!(name :: seen).contains d.name) = true → (!seen.contains d.name) = true := by
        simp only [List.contains_cons]
        cases seen.contains d.name <;> simp
      split
      · next new =>
        rw [if_pos (mono new)]
        omega
      · split <;> omega

/-- Searches the classes above those named in `work`: at each name asks `stop`, then asks `visit`
about its class, then goes on to the interfaces of the class and to its superclass. -/
def search {α : Type} (t : ClassTable) (stop : String → Option α) (visit : Class → Option α)
    (work seen : List String) : Except HierarchyError (Option α) :=
  match work with
  | [] => .ok none
  | name :: work =>
    match stop name with
    | some a => .ok (some a)
    | none =>
      if fresh : seen.contains name then search t stop visit work seen
      else match found : t.find? name with
        | none => .error (.classNotFound name)
        | some c =>
          have := unvisited_lt found (by simpa using fresh)
          match visit c with
          | some a => .ok (some a)
          | none =>
            search t stop visit (c.interfaces ++ c.super.toList ++ work) (name :: seen)
termination_by (t.unvisited seen, work.length)

/-! ### Superclasses -/

/-- The superclasses above `c`, nearest first; `name` is the class asked about, and `seen` holds it
and the classes between. -/
def superclassesFrom (t : ClassTable) (name : String) (super : Option String)
    (seen : List String) : Except HierarchyError (List String) :=
  match super with
  | none => .ok []
  | some super =>
    if fresh : seen.contains super then .error (.circular name)
    else match found : t.find? super with
      | none => .error (.superclassNotFound name super)
      | some c =>
        have := unvisited_lt found (by simpa using fresh)
        (superclassesFrom t name c.super (super :: seen)).map (super :: ·)
termination_by t.unvisited seen

/-- The superclasses of a class, nearest first, without itself. -/
def superclasses (t : ClassTable) (name : String) : Except HierarchyError (List String) := do
  let c ← t.lookup name
  t.superclassesFrom name c.super [name]

def isSubclassOf (t : ClassTable) (sub super : String) : Except HierarchyError Bool :=
  if sub = super then .ok true
  else return (← t.superclasses sub).contains super

/-- Does a class, or a class above it, implement an interface? An interface implements itself. -/
def implements (t : ClassTable) (name iface : String) : Except HierarchyError Bool :=
  return (← t.search (fun n => if n = iface then some () else none) (fun _ => none)
    [name] []).isSome

def isInterface (t : ClassTable) (name : String) : Except HierarchyError Bool :=
  return (← t.lookup name).isInterface

/-- The nearest class that is above both, or is one of them. -/
def commonSuperclass (t : ClassTable) (a b : String) : Except HierarchyError String :=
  if a = b then .ok a
  else do
    let above := a :: (← t.superclasses a)
    let other := b :: (← t.superclasses b)
    return (other.find? above.contains).getD objectClass

/-! ### Members -/

/-- A field and the class that declares it: in the class, then above it through its interfaces, then
through its superclass. -/
def resolveField (t : ClassTable) (owner name desc : String) :
    Except HierarchyError (Field × Class) := do
  match ← t.search (fun _ => none) (fun c => (c.field? name desc).map (·, c)) [owner] [] with
  | some found => return found
  | none => .error (.fieldNotFound owner name desc)

/-- The first of the classes from `c` upwards that declares a method. In a circle of classes without
the method the walk does not end. -/
def methodAbove (t : ClassTable) (name desc : String) (c : Class) (seen : List String) :
    Except HierarchyError (Option (Method × Class)) :=
  match c.method? name desc with
  | some m => .ok (some (m, c))
  | none =>
    match c.super with
    | none => .ok none
    | some super =>
      if fresh : seen.contains super then .error (.endless super)
      else match found : t.find? super with
        | none => .error (.classNotFound super)
        | some above =>
          have := unvisited_lt found (by simpa using fresh)
          methodAbove t name desc above (super :: seen)
termination_by t.unvisited seen

/-- The first of the named interfaces, those seen apart, that declares an inherited method; and the
names looked at before it. -/
def scanInterfaces (t : ClassTable) (name desc : String) (seen : List String) :
    List String → Except HierarchyError (Option (Method × Class) × List String)
  | [] => .ok (none, [])
  | i :: rest =>
    if seen.contains i then scanInterfaces t name desc seen rest
    else do
      let c ← t.lookup i
      match (c.method? name desc).filter fun m => !m.access.has .privateBit && !m.isStatic with
      | some m => return (some (m, c), [])
      | none =>
        let (found, fresh) ← scanInterfaces t name desc (i :: seen) rest
        return (found, i :: fresh)

def isCircular (t : ClassTable) (name : String) : Bool :=
  match t.superclasses name with
  | .error (.circular _) => true
  | _ => false

/-- Searches the interfaces of the classes in a queue and above it, level by level. A circle of
superclasses keeps the queue from ever running empty. -/
def searchInterfaces (t : ClassTable) (name desc : String) (queue seen done : List String) :
    Except HierarchyError (Option (Method × Class)) :=
  match queue with
  | [] =>
    match done.find? t.isCircular with
    | some name => .error (.endless name)
    | none => .ok none
  | current :: queue =>
    if fresh : done.contains current then searchInterfaces t name desc queue seen done
    else match found : t.find? current with
      | none => .error (.classNotFound current)
      | some c =>
        have := unvisited_lt found (by simpa using fresh)
        match t.scanInterfaces name desc seen c.interfaces with
        | .error e => .error e
        | .ok (some found, _) => .ok (some found)
        | .ok (none, fresh) =>
          match c.super with
          | none => searchInterfaces t name desc (queue ++ fresh) (fresh ++ seen) (current :: done)
          | some super =>
            match t.lookup super with
            | .error e => .error e
            | .ok _ =>
              searchInterfaces t name desc (queue ++ fresh ++ [super]) (fresh ++ seen)
                (current :: done)
termination_by (t.unvisited done, queue.length)

/-- A class method and the class that declares it: in the class and those above it, then in all
their interfaces. -/
def resolveMethod (t : ClassTable) (owner name desc : String) :
    Except HierarchyError (Method × Class) := do
  let c ← t.lookup owner
  match ← t.methodAbove name desc c [owner] with
  | some found => return found
  | none =>
    match ← t.searchInterfaces name desc [owner] [] [] with
    | some found => return found
    | none => .error (.methodNotFound owner name desc)

/-- An interface method and the class that declares it: in the interface, then among the public
instance methods of the root class, then in the interfaces above. -/
def resolveInterfaceMethod (t : ClassTable) (owner name desc : String) :
    Except HierarchyError (Method × Class) := do
  let c ← t.lookup owner
  if let some m := c.method? name desc then return (m, c)
  let object ← t.lookup objectClass
  let inherited := (object.method? name desc).filter fun m =>
    m.access.has .publicBit && !m.isStatic
  if let some m := inherited then return (m, object)
  match ← t.searchInterfaces name desc [owner] [] [] with
  | some found => return found
  | none => .error (.interfaceMethodNotFound owner name desc)

end ClassTable

end Bytecode
