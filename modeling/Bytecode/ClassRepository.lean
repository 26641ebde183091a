import Bytecode.ClassTable

/-!
Tables of classes that remember the answers to questions about superclasses.

* `superclasses`, `isSubclassOf`, `commonSuperclass`: questions, which look for an answer among those
  remembered before they ask the table;
* `register`: puts a class into the table, after which nothing is remembered;
* `ask`: the answer to a question, and the repository that it leaves.
-/
namespace Bytecode

/-- A table of classes with answers that it gave: the superclasses of classes, and the common
superclasses of pairs of classes. -/
structure ClassRepository where
  table : ClassTable := .empty
  chains : List (String × List String) := []
  common : List ((String × String) × String) := []
  deriving Repr

namespace ClassRepository

/-- Questions to a repository, which may remember answers also if the question fails. -/
abbrev Query := ExceptT HierarchyError (StateM ClassRepository)

def ask {α : Type} (r : ClassRepository) (q : Query α) :
    Except HierarchyError α × ClassRepository :=
  q.run.run r

/-- Two names in the order in which a pair of them is remembered. -/
def pair (a b : String) : String × String :=
  if b < a then (b, a) else (a, b)

/-- The class of the same name that was there, and the repository with a class in its place. It
remembers nothing. -/
def register (r : ClassRepository) (c : Class) : Option Class × ClassRepository :=
  (r.table.find? c.name, { table := r.table.register c })

def superclasses (name : String) : Query (List String) := do
  let r ← get
  match r.chains.lookup name with
  | some chain => return chain
  | none =>
    let chain ← r.table.superclasses name
    modify fun r => { r with chains := (name, chain) :: r.chains }
    return chain

def isSubclassOf (sub super : String) : Query Bool :=
  if sub = super then return true
  else return (← superclasses sub).contains super

def commonSuperclass (a b : String) : Query String :=
  if a = b then return a
  else do
    match (← get).common.lookup (pair a b) with
    | some common => return common
    | none =>
      let above := a :: (← superclasses a)
      let other := b :: (← superclasses b)
      let common := (other.find? above.contains).getD objectClass
      modify fun r => { r with common := (pair a b, common) :: r.common }
      return common

end ClassRepository

end Bytecode
