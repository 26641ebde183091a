import Bytecode.ClassTable

/-!
What a verification asks about classes. A class table answers from the classes in it
(`ClassTable.hierarchy`); any other source may answer as it likes, and each question with an error.
-/
namespace Bytecode

structure Hierarchy where
  lookup : (name : String) → Except HierarchyError Class
  isSubclassOf : (sub super : String) → Except HierarchyError Bool
  commonSuperclass : (a b : String) → Except HierarchyError String
  resolveField : (owner name desc : String) → Except HierarchyError (Field × Class)
  resolveMethod : (owner name desc : String) → Except HierarchyError (Method × Class)
  resolveInterfaceMethod : (owner name desc : String) → Except HierarchyError (Method × Class)
  /-- The number of classes; a search up the superclasses takes no more steps. -/
  size : Nat

def ClassTable.hierarchy (t : ClassTable) : Hierarchy where
  lookup := t.lookup
  isSubclassOf := t.isSubclassOf
  commonSuperclass := t.commonSuperclass
  resolveField := t.resolveField
  resolveMethod := t.resolveMethod
  resolveInterfaceMethod := t.resolveInterfaceMethod
  size := t.size

instance : Coe ClassTable Hierarchy := ⟨ClassTable.hierarchy⟩

end Bytecode
