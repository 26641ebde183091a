import Bytecode.Frame.Stack
import Bytecode.Lattice
import Bytecode.Rejection

/-!
Merging lists of value types, entry by entry. Entries on the stack must stay typed; a local
variable without a common type becomes unusable.
-/
namespace Bytecode

/-- Merges lists entry by entry and says whether an entry changed. The first failure stops the
merge: it keeps what was merged before, and the rest as it was. -/
def mergeEntries (merge : Nat → ValueType → ValueType → Except Failure ValueType)
    (mine theirs : List ValueType) : List ValueType × Except Failure Bool :=
  go 0 [] false mine theirs
where
  /-- Merges the entries from number `i` on, after those merged before, which stand last first. -/
  go (i : Nat) (merged : List ValueType) (changed : Bool) (mine theirs : List ValueType) :
      List ValueType × Except Failure Bool :=
    match mine, theirs with
    | a :: mine, b :: theirs =>
      match merge i a b with
      | .ok c => go (i + 1) (c :: merged) (changed || c != a) mine theirs
      | .error e => (merged.reverse ++ a :: mine, .error e)
    | mine, _ => (merged.reverse ++ mine, .ok changed)

namespace Hierarchy

def joinReferences (h : Hierarchy) (a b : ValueType) : Except Failure ValueType :=
  (h.join a b).mapError .internal

def mergeStackEntry (h : Hierarchy) (i : Nat) (mine theirs : ValueType) :
    Except Failure ValueType :=
  let fault (e : MergeFault) : Except Failure ValueType := .error (.rejected (.merge e))
  if mine = theirs then .ok mine
  else if mine.isUninitialized then fault (.stackMarkerMeets mine theirs)
  else if theirs.isUninitialized then fault (.stackMarker theirs)
  else if mine.isReference && theirs.isReference then h.joinReferences mine theirs
  else fault (.stackEntry i mine theirs)

/-- Merges a local variable with another. An object that one side has initialized counts as
initialized. -/
def mergeLocal (h : Hierarchy) (i : Nat) (mine theirs : ValueType) : Except Failure ValueType :=
  let fault (e : MergeFault) : Except Failure ValueType := .error (.rejected (.merge e))
  if mine = theirs then .ok mine
  else if theirs.isUninitialized then
    if mine.isUninitialized then fault (.localMarkers i mine theirs)
    else fault (.localMarker i theirs)
  else
    let mine := if mine.isUninitialized then mine.initialized else mine
    if mine = theirs then .ok mine
    else if mine.isReference && theirs.isReference then h.joinReferences mine theirs
    else .ok .unknown

end Hierarchy

end Bytecode
