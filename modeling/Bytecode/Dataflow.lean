import Bytecode.CallChain
import Bytecode.FlowGraph
import Bytecode.Transfer

/-!
Data flow: frames are carried along the graph until nothing changes.

A frame is stored for each node and context, on entry and on exit. To execute a node is to merge a
frame into the one stored on entry and, if that changed it, to check and run the instruction. A node
whose frame on exit changed is queued with the chain of instructions that led to it, and its
successors are executed in turn.

* `execute`: one node;
* `visit`: the successors and handlers of a queued node;
* `solve`: the whole, from the frame that a method starts with to the frames it ends with.

Every function gives the state it leaves, also when it fails.
-/
namespace Bytecode

/-- Frames by node and context, the contexts of a node in order. -/
structure FrameTable where
  rows : Array (List (CallKey × Frame))
  deriving Repr

namespace FrameTable

def empty (nodes : Nat) : FrameTable :=
  ⟨Array.replicate nodes []⟩

def row (t : FrameTable) (n : Nat) : List (CallKey × Frame) :=
  t.rows.getD n []

def get? (t : FrameTable) (n : Nat) (key : CallKey) : Option Frame :=
  (t.row n).lookup key

def insertRow (key : CallKey) (f : Frame) : List (CallKey × Frame) → List (CallKey × Frame)
  | [] => [(key, f)]
  | (k, g) :: rest =>
    if k = key then (key, f) :: rest
    else if key.le k then (key, f) :: (k, g) :: rest
    else (k, g) :: insertRow key f rest

def insert (t : FrameTable) (n : Nat) (key : CallKey) (f : Frame) : FrameTable :=
  ⟨t.rows.modify n (insertRow key f)⟩

end FrameTable

/-- A marker that is left when a method or subroutine is left. -/
inductive Warning where
  | inLocal (ins : Instruction) (key : CallKey) (marker : ValueType) (index : Nat)
  /-- Entries count from the bottom. -/
  | onStack (ins : Instruction) (key : CallKey) (marker : ValueType) (index : Nat)
  deriving DecidableEq, Repr

def Warning.message : Warning → String
  | .inLocal ins key marker index =>
    ins.text ++ " [" ++ key.text ++ s!"] leaves {marker} in local {index}"
  | .onStack ins key marker index =>
    ins.text ++ " [" ++ key.text ++ s!"] leaves {marker} on the stack at {index}"

/-- What was looked at: a node, the frame there, and the chain that led to it. -/
structure Visit where
  node : Nat
  frame : Frame
  chain : CallChain

/-- A node whose frame on exit changed. -/
structure WorkItem where
  node : Nat
  chain : CallChain
  deriving DecidableEq, Repr

structure FlowState where
  inputs : FrameTable
  outputs : FrameTable
  steps : Nat := 0
  warnings : List Warning := []
  last : Option Visit := none

/-- The state that a step leaves, and its outcome. -/
abbrev FlowStep (α : Type) := FlowState × Except Failure α

namespace MethodContext

/-! ### One node -/

/-- The rejection of a merge, with the instruction at which it would happen. -/
def mergingInto (ins : Instruction) : Failure → Failure
  | .rejected (.merge fault) => .rejected (.mergeAt fault ins)
  | failure => failure

/-- Checks and runs an instruction on a frame that is new on entry. Says whether the frame on exit
changed. -/
def runNode (c : MethodContext) (g : FlowGraph) (n : Nat) (f : Frame) (chain : CallChain)
    (s : FlowState) : FlowStep Bool :=
  let key := chain.key
  let ins := g.instruction n
  let s := { s with
    inputs := s.inputs.insert n key f, steps := s.steps + 1, last := some ⟨n, f, chain⟩ }
  match c.check ins f with
  | .error e => (s, .error e)
  | .ok () =>
    match c.run ins f with
    | .error e => (s, .error (.internal e))
    | .ok out =>
      let changed := !(s.outputs.get? n key).any (·.same out)
      ({ s with outputs := s.outputs.insert n key out, last := some ⟨n, out, chain⟩ },
        .ok changed)

/-- Merges a frame into the one stored on entry of a node and, if that changed it, runs the
instruction. Says whether the frame on exit changed. -/
def execute (c : MethodContext) (g : FlowGraph) (n : Nat) (f : Frame) (chain : CallChain)
    (s : FlowState) : FlowStep Bool :=
  let s := { s with last := some ⟨n, f, chain⟩ }
  match s.inputs.get? n chain.key with
  | none => c.runNode g n f chain s
  | some stored =>
    match Frame.merge c.hierarchy stored f with
    | (merged, .error e) =>
      ({ s with inputs := s.inputs.insert n chain.key merged },
        .error (mergingInto (g.instruction n) e))
    | (_, .ok false) => (s, .ok false)
    | (merged, .ok true) => c.runNode g n merged chain s

/-! ### The successors of a node -/

/-- Executes nodes on one frame, and gives those that have to be queued. -/
def executeAll (c : MethodContext) (g : FlowGraph) (f : Frame) (chain : CallChain)
    (s : FlowState) : List Nat → FlowStep (List WorkItem)
  | [] => (s, .ok [])
  | n :: rest =>
    match c.execute g n f chain s with
    | (s, .error e) => (s, .error e)
    | (s, .ok changed) =>
      match c.executeAll g f chain s rest with
      | (s, .error e) => (s, .error e)
      | (s, .ok items) => (s, .ok (if changed then ⟨n, chain⟩ :: items else items))

/-- The frame that a handler starts with, from the frame on exit of a node it guards. The exception
may come before a constructor call on the receiver is complete, so the receiver counts as
uninitialized if it was so on entry. -/
def handlerFrame (guard : Guard) (out : Frame) (entry : Option Frame) :
    Except InternalError Frame := do
  let stack ← Stack.push { max := out.stack.max } guard.caughtType
  return { stack, locals := out.locals
           thisUninitialized := out.thisUninitialized || entry.any (·.thisUninitialized) }

def executeHandlers (c : MethodContext) (g : FlowGraph) (n : Nat) (key : CallKey) (out : Frame)
    (s : FlowState) : List Guard → FlowStep (List WorkItem)
  | [] => (s, .ok [])
  | guard :: rest =>
    if out.stack.max < 1 then
      (s, .error (.rejected (.handlerStack (g.instruction n) (g.instruction guard.entry).pos)))
    else
      match handlerFrame guard out (s.inputs.get? n key) with
      | .error e => (s, .error (.internal e))
      | .ok f =>
        match c.execute g guard.entry f .empty s with
        | (s, .error e) => (s, .error e)
        | (s, .ok changed) =>
          match c.executeHandlers g n key out s rest with
          | (s, .error e) => (s, .error e)
          | (s, .ok items) =>
            (s, .ok (if changed then ⟨guard.entry, .empty⟩ :: items else items))

/-- Where a return from a subroutine goes on: after the innermost call that has not returned. The
return address in the frame must agree. -/
def returnTarget (g : FlowGraph) (n : Nat) (chain : CallChain) (out : Frame) :
    Except InternalError Nat := do
  let ins := g.instruction n
  match ← out.getLocal ins.index with
  | .returnAddress offset =>
    let some target := g.node? offset | .error (.strayReturn ins offset)
    let some call := chain.openCall? | .error (.returnWithoutCall ins)
    let expected ← g.next call
    if target ≠ expected then
      .error (.returnElsewhere ins offset (g.instruction call) (g.instruction expected).pos)
    if (← g.returnTargets n).contains target then return target
    else .error (.returnToNoCaller ins offset)
  | found => .error (.noReturnAddress ins found)

def flowSuccessors (g : FlowGraph) (n : Nat) (chain : CallChain) (out : Frame) :
    Except InternalError (List Nat) :=
  if (g.instruction n).op.isRet then return [← returnTarget g n chain out]
  else .ok (g.successorsOf n)

/-- The frame on exit of a queued node, the chain with it, and the nodes it leads to. -/
def leaving (g : FlowGraph) (item : WorkItem) (s : FlowState) :
    Except InternalError (Frame × CallChain × List Nat) := do
  let ins := g.instruction item.node
  let some out := s.outputs.get? item.node item.chain.key
    | .error (.noOutFrame ins item.chain.key)
  let chain ← item.chain.extend item.node ins.op.isJsr ins.op.isRet
  let successors ← flowSuccessors g item.node item.chain out
  return (out, chain, successors)

/-- Executes the successors of a queued node and the handlers that guard it, and gives what has to
be queued. -/
def visit (c : MethodContext) (g : FlowGraph) (item : WorkItem) (s : FlowState) :
    FlowStep (List WorkItem) :=
  match leaving g item s with
  | .error e => (s, .error (.internal e))
  | .ok (out, chain, successors) =>
    match c.executeAll g out chain s successors with
    | (s, .error e) => (s, .error e)
    | (s, .ok items) =>
      match c.executeHandlers g item.node item.chain.key out s (g.guardsOf item.node) with
      | (s, .error e) => (s, .error e)
      | (s, .ok more) => (s, .ok (items ++ more))

/-! ### The whole -/

/-- Visits queued nodes in order until the queue is empty, at most `fuel` of them. -/
def settle (c : MethodContext) (g : FlowGraph) :
    (fuel : Nat) → List WorkItem → FlowState → FlowStep Unit
  | _, [], s => (s, .ok ())
  | 0, _, s => (s, .error (.internal .unsettled))
  | fuel + 1, item :: queue, s =>
    match c.visit g item s with
    | (s, .error e) => (s, .error e)
    | (s, .ok items) => c.settle g fuel (queue ++ items) s

/-- More changes than a frame can go through. A value changes along the superclasses; a class with
the name of an array may take it to an array, and it has up to 257 dimensions to go through then. -/
def frameBound (c : MethodContext) : Nat :=
  let slots := c.method.maxStack.toNat + c.method.maxLocals.toNat
  slots * (258 * (c.hierarchy.size + 3) + 1) + 1

/-- More visits than can be needed: each comes from a change of a frame on exit, so of a frame on
entry. -/
def visitBound (c : MethodContext) (g : FlowGraph) : Nat :=
  g.size * (g.size + 1) * (c.frameBound + 1) + 1

def placeArguments (f : Frame) (slot : Nat) : List FieldType → Except InternalError Frame
  | [] => .ok f
  | arg :: rest => do
    let t := ValueType.ofFieldType arg
    placeArguments (← f.place slot t) (slot + t.size) rest

def startsUninitialized (c : MethodContext) : Bool :=
  c.method.isConstructor && c.owner.name ≠ objectClass

/-- The frame that a method starts with: the receiver, then the arguments. -/
def initialFrame (c : MethodContext) : Except InternalError Frame := do
  let f : Frame :=
    { Frame.empty c.method.maxStack c.method.maxLocals.toNat with
      thisUninitialized := c.startsUninitialized }
  if c.method.isStatic then placeArguments f 0 c.type.args
  else
    let receiver :=
      if c.startsUninitialized then .uninitializedThis c.owner.name
      else ValueType.reference c.owner.name
    placeArguments (← f.setLocal 0 receiver) 1 c.type.args

/-- The markers that a frame holds when an instruction leaves a method or subroutine. -/
def leftMarkers (ins : Instruction) (key : CallKey) (out : Frame) : List Warning :=
  let marked (types : List ValueType) : List (ValueType × Nat) :=
    types.zipIdx.filter (·.1.isUninitialized)
  (marked out.locals.toList).map (fun (t, i) => .inLocal ins key t i) ++
    (marked out.stack.bottomUp).map (fun (t, i) => .onStack ins key t i)

/-- Checks a return of a value once more, on the frame that all paths left on entry. -/
def recheckReturn (c : MethodContext) (n : Nat) (key : CallKey) (ins : Instruction)
    (s : FlowState) : FlowStep Unit :=
  match ins.action, s.inputs.get? n key with
  | .leave (some kind), some f =>
    let s := { s with last := some ⟨n, f, .empty⟩ }
    (s, c.checkReturn ins (some kind) f)
  | _, _ => (s, .ok ())

/-- Looks at the frames with which an instruction leaves a method or subroutine. -/
def scanExit (c : MethodContext) (n : Nat) (ins : Instruction) (s : FlowState) :
    List (CallKey × Frame) → FlowStep Unit
  | [] => (s, .ok ())
  | (key, out) :: rest =>
    let s := { s with warnings := s.warnings ++ leftMarkers ins key out }
    match c.recheckReturn n key ins s with
    | (s, .error e) => (s, .error e)
    | (s, .ok ()) => c.scanExit n ins s rest

def scanExits (c : MethodContext) (g : FlowGraph) (s : FlowState) : List Nat → FlowStep Unit
  | [] => (s, .ok ())
  | n :: rest =>
    let ins := g.instruction n
    if ins.op.isReturn || ins.op.isRet then
      match c.scanExit n ins s (s.outputs.row n) with
      | (s, .error e) => (s, .error e)
      | (s, .ok ()) => c.scanExits g s rest
    else c.scanExits g s rest

def startState (g : FlowGraph) : FlowState :=
  { inputs := .empty g.size, outputs := .empty g.size }

def solve (c : MethodContext) (g : FlowGraph) : FlowStep Unit :=
  match c.initialFrame with
  | .error e => (startState g, .error (.internal e))
  | .ok f =>
    match c.execute g 0 f .empty (startState g) with
    | (s, .error e) => (s, .error e)
    | (s, .ok _) =>
      match c.settle g (c.visitBound g) [⟨0, .empty⟩] s with
      | (s, .error e) => (s, .error e)
      | (s, .ok ()) => c.scanExits g s (List.range g.size)

end MethodContext

end Bytecode
