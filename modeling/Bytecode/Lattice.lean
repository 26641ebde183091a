import Bytecode.Hierarchy
import Bytecode.InternalError

/-!
The order of value types, which depends on the hierarchy of classes.

* `Hierarchy.join`: the nearest common supertype of two references;
* `Hierarchy.assignable`: may a value stand where another type is declared?

An interface stands nowhere in the order: a join with one is the root class, and every reference may
stand where an interface is declared.
-/
namespace Bytecode.Hierarchy

open ValueType

def knownInterface (h : Hierarchy) (name : String) : Except InternalError Bool :=
  ((h.lookup name).map Class.isInterface).mapError (.loadClass name)

def knownSubclass (h : Hierarchy) (sub super : String) : Except InternalError Bool :=
  (h.isSubclassOf sub super).mapError (.loadSuperclasses sub)

/-- The nearest common supertype of two classes. -/
def joinClasses (h : Hierarchy) (a b : ValueType) : Except InternalError ValueType := do
  if ← h.knownInterface a.name then return .reference objectClass
  if ← h.knownInterface b.name then return .reference objectClass
  let common ← (h.commonSuperclass a.name b.name).mapError (.loadCommonSuperclass a b)
  return .reference common

/-- The nearest common supertype of two references. Arrays of references join by their components;
other arrays have only the root class in common. -/
def join (h : Hierarchy) (a b : ValueType) : Except InternalError ValueType :=
  if a = b then .ok a
  else if a = .null then .ok b
  else if b = .null then .ok a
  else if a.isArray || b.isArray then
    match ha : a.component?, b.component? with
    | some ca, some cb =>
      if ca.isReference && cb.isReference then
        have := length_name_component ha
        (join h (ofFieldType ca) (ofFieldType cb)).map arrayOf
      else .ok (.reference objectClass)
    | _, _ => .ok (.reference objectClass)
  else h.joinClasses a b
termination_by a.name.length

def assignable (h : Hierarchy) (value target : ValueType) : Except InternalError Bool :=
  if value = target then .ok true
  else match value, target with
    | .null, .reference _ => .ok true
    | .reference v, .reference w =>
      if (reference w).isArray then
        if (reference v).isArray then
          match hv : (reference v).component?, (reference w).component? with
          | some cv, some cw =>
            if cv.isReference && cw.isReference then
              have := length_name_component hv
              assignable h (ofFieldType cv) (ofFieldType cw)
            else .ok (cv = cw)
          | cv, cw => .ok (cv = cw)
        else .ok false
      else if w = objectClass then .ok true
      else do
        if ← h.knownInterface w then return true
        if (reference v).isArray then return false
        h.knownSubclass v w
    | _, _ => .ok false
termination_by value.name.length

end Bytecode.Hierarchy
