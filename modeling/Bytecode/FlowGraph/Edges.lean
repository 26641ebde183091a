import Bytecode.Instruction.Decode
import Bytecode.Rejection

/-!
The instructions of a method as nodes of a graph, numbered in code order, with the edges that the
instructions alone decide and the exception handlers.

A subroutine call leads to its target. A return from a subroutine leads nowhere, since its
destination depends on the call.
-/
namespace Bytecode

/-- An exception handler in node numbers: it guards the nodes from `start` up to `stop`. Without a
class it catches everything. -/
structure Guard where
  start : Nat
  stop : Nat
  entry : Nat
  caught : Option String
  deriving DecidableEq, Repr

def Guard.caughtType (g : Guard) : ValueType :=
  .reference (g.caught.getD throwableClass)

/-- Adds handler number `i` to the nodes that it guards. -/
def Guard.protect (g : Guard) (byNode : Array (List Nat)) (i : Nat) : Array (List Nat) :=
  (List.range' g.start (g.stop - g.start)).foldl (fun byNode n => byNode.modify n (· ++ [i])) byNode

/-- The instructions with their offsets, the edges between them, and the handlers; `byNode` has the
numbers of the handlers that guard each node. -/
structure CodeEdges where
  code : Array Instruction
  nodes : Array (Option Nat)
  successors : Array (List Nat) := #[]
  guards : List Guard := []
  byNode : Array (List Nat) := #[]

namespace CodeEdges

def size (g : CodeEdges) : Nat :=
  g.code.size

def instruction (g : CodeEdges) (n : Nat) : Instruction :=
  g.code.getD n ⟨0, .nop, false, .none⟩

def node? (g : CodeEdges) (offset : Int) : Option Nat :=
  instructionAt? g.nodes offset

def node (g : CodeEdges) (offset : Int) : Except InternalError Nat :=
  match g.node? offset with
  | some n => .ok n
  | none => .error (.noInstruction offset)

def next (g : CodeEdges) (n : Nat) : Except InternalError Nat :=
  g.node (g.instruction n).next

def staticSuccessors (g : CodeEdges) (ins : Instruction) : Except InternalError (List Nat) :=
  match ins.action with
  | .ret | .leave _ | .raise => .ok []
  | .jsr | .goto | .switch => return (← ins.branchTargets.mapM g.node).eraseDups
  | .branch _ => do
    let next ← g.node ins.next
    return (next :: (← ins.branchTargets.mapM g.node)).eraseDups
  | _ => return [← g.node ins.next]

def successorsOf (g : CodeEdges) (n : Nat) : List Nat :=
  g.successors.getD n []

/-- The handlers that guard a node, in the order of the exception table. -/
def guardsOf (g : CodeEdges) (n : Nat) : List Guard :=
  (g.byNode.getD n []).filterMap (g.guards[·]?)

def codeLength (g : CodeEdges) : Nat :=
  codeEnd g.code

/-- Entry number `i` of an exception table, in node numbers. -/
def guard (g : CodeEdges) (pool : ConstantPool) (h : Handler) (i : Nat) :
    Except InternalError Guard := do
  let some start := g.node? h.start | .error (.handlerStart i h.start)
  let some stop := g.node? h.stop <|> (if h.stop = g.codeLength then some g.size else none)
    | .error (.handlerStop i h.stop)
  let some entry := g.node? h.target | .error (.handlerEntry i h.target)
  if h.catchIndex = 0 then return ⟨start, stop, entry, none⟩
  let name ← (pool.className h.catchIndex).mapError (.handlerCatch i)
  return ⟨start, stop, entry, if name = "" then none else some name⟩

def build (code : Array Instruction) (table : List Handler) (pool : ConstantPool) :
    Except InternalError CodeEdges := do
  if code.isEmpty then .error .emptyCode
  let g : CodeEdges := { code, nodes := indexOffsets code }
  let successors ← code.mapM g.staticSuccessors
  let guards ← table.zipIdx.mapM fun (h, i) => g.guard pool h i
  let byNode := guards.zipIdx.foldl (fun byNode (guard, i) => guard.protect byNode i)
    (Array.replicate code.size [])
  return { g with successors, guards, byNode }

end CodeEdges

end Bytecode
