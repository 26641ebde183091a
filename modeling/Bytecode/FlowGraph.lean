import Bytecode.FlowGraph.Edges

/-!
The graph of a method with its subroutines: the code falls into the top level and disjoint
subroutines, each entered by calls to its first instruction and left by one return.

* `reach`: the nodes that can be reached from some;
* `FlowGraph.build`: the graph, or a rejection of code whose subroutines are out of shape;
* `FlowGraph.returnTargets`: where a return from a subroutine may go.
-/
namespace Bytecode

/-- A region of the code: the top level, or a subroutine with its first node, the local variable
that holds the return address, and its return. -/
structure Region where
  leader : Option Nat := none
  slot : Option Nat := none
  exit : Option Nat := none
  members : List Nat := []
  callers : List Nat := []
  calls : List Nat := []
  deriving DecidableEq, Repr

/-- A graph with its regions, of which the first is the top level; `owner` gives the region of each
node that is reached. -/
structure FlowGraph extends CodeEdges where
  regions : Array Region
  owner : Array (Option Nat)

/-! ### Reachability -/

/-- Marks a node and adds it to the work, unless it is marked already or there is no such node. -/
def mark (state : Array Bool × List Nat) (n : Nat) : Array Bool × List Nat :=
  if h : ∃ lt : n < state.1.size, state.1[n] = false then
    (state.1.set n true h.1, n :: state.2)
  else state

/-- A node leaves the unmarked ones as it comes to the work. -/
theorem count_mark (state : Array Bool × List Nat) (n : Nat) :
    (mark state n).1.count false + (mark state n).2.length =
      state.1.count false + state.2.length := by
  unfold mark
  split
  · next h =>
    obtain ⟨lt, unseen⟩ := h
    have pos : 0 < state.1.count false :=
      Array.count_pos_iff.2 (unseen ▸ Array.getElem_mem lt)
    simp only [Array.count_set, unseen, List.length_cons]
    simp
    omega
  · rfl

theorem count_marks (ns : List Nat) (state : Array Bool × List Nat) :
    (ns.foldl mark state).1.count false + (ns.foldl mark state).2.length =
      state.1.count false + state.2.length := by
  induction ns generalizing state with
  | nil => rfl
  | cons n ns ih => rw [List.foldl_cons, ih, count_mark]

/-- Marks the nodes that can be reached from those in `work`, which are marked themselves. -/
def spread (flow : Array (List Nat)) (seen : Array Bool) (work : List Nat) : Array Bool :=
  match work with
  | [] => seen
  | n :: work =>
    let next := (flow.getD n []).foldl mark (seen, work)
    spread flow next.1 next.2
termination_by seen.count false + work.length
decreasing_by
  have := count_marks (flow.getD n []) (seen, work)
  simp only [List.length_cons] at this ⊢
  omega

def reach (flow : Array (List Nat)) (size : Nat) (roots : List Nat) : Array Bool :=
  let start := roots.foldl mark (Array.replicate size false, [])
  spread flow start.1 start.2

namespace CodeEdges

/-- The nodes that a node leads to inside its region: a call goes on after it. -/
def regionSuccessors (g : CodeEdges) (n : Nat) : Except InternalError (List Nat) :=
  if (g.instruction n).op.isJsr then return [← g.next n] else .ok (g.successorsOf n)

/-- The subroutine calls in code order, each as the node that it leads to and its own. -/
def callSites (g : CodeEdges) : List (Nat × Nat) :=
  (List.range g.size).flatMap fun n =>
    if (g.instruction n).op.isJsr then (g.successorsOf n).map (·, n) else []

def storesReference (ins : Instruction) : Bool :=
  match ins.action with
  | .store .reference _ => true
  | _ => false

/-- Notes a call with the subroutine that it enters, or starts that subroutine. The subroutines
stand in the order of their first calls, and the second list gives their places by their first
nodes. -/
def addCaller (g : CodeEdges) :
    List Region × List (Nat × Nat) → Nat × Nat →
      Except SubroutineFault (List Region × List (Nat × Nat))
  | (regions, byLeader), (leader, n) =>
    match byLeader.lookup leader with
    | some i => .ok (regions.modify i fun r => { r with callers := r.callers ++ [n] }, byLeader)
    | none =>
      let first := g.instruction leader
      if storesReference first then
        .ok (regions ++ [{ leader := some leader, slot := some first.index, callers := [n] }],
          (leader, regions.length) :: byLeader)
      else .error (.noReturnStore first)

/-- The regions before their members are known: the top level, then the subroutines in the order of
their first nodes. -/
def leaders (g : CodeEdges) : Except SubroutineFault (List Region) := do
  let (regions, _) ← g.callSites.foldlM g.addCaller ([], [])
  return {} :: regions.mergeSort fun a b => a.leader.getD 0 ≤ b.leader.getD 0

def members (g : CodeEdges) (flow : Array (List Nat)) (r : Region) : List Nat :=
  let roots := match r.leader with
    | some leader => [leader]
    | none => 0 :: g.guards.map Guard.entry
  let seen := reach flow g.size roots
  (List.range g.size).filter (seen.getD · false)

def claim (g : CodeEdges) (owner : Array (Option Nat)) (region : Nat) (members : List Nat) :
    Except SubroutineFault (Array (Option Nat)) :=
  match members.find? fun n => (owner.getD n none).isSome with
  | some n => .error (.shared (g.instruction n))
  | none => .ok (members.foldl (fun owner n => owner.setIfInBounds n (some region)) owner)

/-- Gives the regions their members, one after another, and the nodes their regions. -/
def color (g : CodeEdges) (flow : Array (List Nat)) (owner : Array (Option Nat)) :
    (region : Nat) → List Region → Except SubroutineFault (List Region × Array (Option Nat))
  | _, [] => .ok ([], owner)
  | region, r :: rest => do
    let members := g.members flow r
    let owner ← g.claim owner region members
    let (rest, owner) ← g.color flow owner (region + 1) rest
    return ({ r with members } :: rest, owner)

def exitOf (g : CodeEdges) (r : Region) : Except SubroutineFault (Option Nat) :=
  let returns := r.members.filter fun n => (g.instruction n).op.isRet
  match r.leader, returns with
  | none, [] => .ok none
  | none, n :: _ => .error (.returnOutside (g.instruction n))
  | some leader, [] => .error (.noExit (g.instruction leader).pos)
  | some leader, [n] =>
    let slot := r.slot.getD 0
    if (g.instruction n).index = slot then .ok (some n)
    else .error (.returnSlot (g.instruction leader).pos slot (g.instruction n))
  | some leader, a :: b :: _ =>
    .error (.twoExits (g.instruction leader).pos (g.instruction a) (g.instruction b))

def callsOf (g : CodeEdges) (regions : List Region) (r : Region) : List Nat :=
  let callees := r.members.flatMap fun n =>
    if (g.instruction n).op.isJsr then g.successorsOf n else []
  ((callees.filterMap fun leader => regions.findIdx? (·.leader == some leader)).eraseDups).mergeSort

/-- The first node of a subroutine that a handler guards, with the node of the handler. -/
def guardedNode? (g : CodeEdges) (owner : Array (Option Nat)) : Option (Nat × Nat) :=
  g.guards.findSome? fun guard =>
    ((List.range' guard.start (guard.stop - guard.start)).find? fun n =>
      (owner.getD n none).any (0 < ·)).map (·, guard.entry)

/-- The regions whose variable for the return address is not in use. -/
def unused (regions : Array Region) (active : List Nat) : Nat :=
  (regions.toList.filter fun r => !active.contains (r.slot.getD 0)).length

theorem unused_lt {regions : Array Region} {active : List Nat} {callee : Nat} {r : Region}
    (found : regions[callee]? = some r) (fresh : active.contains (r.slot.getD 0) = false) :
    unused regions (r.slot.getD 0 :: active) < unused regions active := by
  have split : (regions.toList.filter fun s => !(r.slot.getD 0 :: active).contains (s.slot.getD 0)) =
      (regions.toList.filter fun s => !active.contains (s.slot.getD 0)).filter fun s =>
        !(s.slot.getD 0 == r.slot.getD 0) := by
    rw [List.filter_filter]
    congr 1
    funext s
    rw [List.contains_cons, Bool.not_or]
  have mem : r ∈ regions.toList.filter fun s => !active.contains (s.slot.getD 0) :=
    List.mem_filter.2 ⟨Array.mem_toList_iff.2 (Array.mem_of_getElem? found), by rw [fresh]; rfl⟩
  unfold unused
  rw [split, List.length_filter_lt_length_iff_exists]
  exact ⟨r, mem, by simp⟩

/-- Follows the calls from a region while no subroutine is entered under another that keeps its
return address in the same variable; `active` holds the variables in use. -/
def checkCalls (g : CodeEdges) (regions : Array Region) (active calls : List Nat) :
    Except SubroutineFault Unit :=
  calls.forM fun callee =>
    match found : regions[callee]? with
    | none => .ok ()
    | some r =>
      if fresh : active.contains (r.slot.getD 0) then
        .error (.recursive (g.instruction (r.leader.getD 0)).pos (r.slot.getD 0))
      else
        have := unused_lt found (by simpa using fresh)
        g.checkCalls regions (r.slot.getD 0 :: active) r.calls
termination_by unused regions active

/-- The regions of a graph with their owners, before the calls between them are followed. -/
def divide (g : CodeEdges) (strict : Bool) :
    Except Failure (Array Region × Array (Option Nat)) := do
  let shaped {α : Type} (r : Except SubroutineFault α) : Except Failure α :=
    r.mapError fun e => .rejected (.subroutine e)
  let regions ← shaped g.leaders
  let flow ← ((Array.range g.size).mapM g.regionSuccessors).mapError .internal
  let (regions, owner) ← shaped (g.color flow (Array.replicate g.size none) 0 regions)
  let regions ← shaped (regions.mapM fun r =>
    return { r with exit := ← g.exitOf r, calls := g.callsOf regions r })
  if strict then
    if let some (n, entry) := g.guardedNode? owner then
      shaped (.error (.guarded (g.instruction n) (g.instruction entry).pos))
  return (regions.toArray, owner)

def partition (g : CodeEdges) (strict : Bool) :
    Except Failure (Array Region × Array (Option Nat)) := do
  let (regions, owner) ← g.divide strict
  (g.checkCalls regions [] (regions.getD 0 {}).calls).mapError fun e => .rejected (.subroutine e)
  return (regions, owner)

end CodeEdges

namespace FlowGraph

/-- The graph of decoded code. Under strict rules no handler may guard a subroutine. -/
def build (code : Array Instruction) (table : List Handler) (pool : ConstantPool)
    (strict : Bool) : Except Failure FlowGraph := do
  let g ← (CodeEdges.build code table pool).mapError .internal
  let (regions, owner) ← g.partition strict
  return { g with regions, owner }

/-- Where the return at a node may go: after each call of its subroutine. -/
def returnTargets (g : FlowGraph) (n : Nat) : Except InternalError (List Nat) :=
  match g.owner.getD n none with
  | none => .error (.deadCode n)
  | some region =>
    let r := g.regions.getD region {}
    if r.leader.isNone then .error (.topLevelReturn (g.instruction n))
    else r.callers.mapM g.next

end FlowGraph

end Bytecode
