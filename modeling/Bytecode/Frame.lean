import Bytecode.Frame.Merge

/-!
Frames: an operand stack with local variables, which is what is known before an instruction.

* `Frame.merge`: what is known where two paths meet.
-/
namespace Bytecode

/-- A frame. `thisUninitialized` holds while the receiver of a constructor has not been through a
constructor call on this path. -/
structure Frame where
  stack : Stack
  locals : Array ValueType
  thisUninitialized : Bool := false
  deriving DecidableEq, Repr

namespace Frame

def empty (maxStack : Int) (maxLocals : Nat) : Frame :=
  { stack := { max := maxStack }, locals := Array.replicate maxLocals .unknown }

def getLocal (f : Frame) (i : Int) : Except InternalError ValueType :=
  match i with
  | .ofNat n =>
    match f.locals[n]? with
    | some t => .ok t
    | none => .error (.localRange i f.locals.size)
  | .negSucc _ => .error (.localRange i f.locals.size)

def setLocal (f : Frame) (i : Int) (t : ValueType) : Except InternalError Frame :=
  match i with
  | .ofNat n =>
    if n < f.locals.size then .ok { f with locals := f.locals.setIfInBounds n t }
    else .error (.localRange i f.locals.size)
  | .negSucc _ => .error (.localRange i f.locals.size)

/-- Stores a value. The variable after a long or double becomes unusable. -/
def place (f : Frame) (i : Nat) (t : ValueType) : Except InternalError Frame := do
  let f ← f.setLocal i t
  if t.size = 2 then f.setLocal (i + 1) .unknown else return f

def initializeObject (f : Frame) (marker : ValueType) : Frame :=
  { f with
    stack := f.stack.initializeObject marker
    locals := f.locals.map fun t => if t = marker then marker.initialized else t }

def localsText (f : Frame) : String :=
  "[" ++ ", ".intercalate (f.locals.toList.zipIdx.map fun (t, i) => s!"{i}:{t}") ++ "]"

def text (f : Frame) : String :=
  "stack " ++ f.stack.text ++ " locals " ++ f.localsText

/-- Do two frames know the same? The limits do not matter. -/
def same (f g : Frame) : Bool :=
  f.thisUninitialized == g.thisUninitialized && f.stack.values == g.stack.values &&
    f.locals == g.locals

/-! ### Merging -/

/-- Merges stacks and says whether that changed `mine`. A failure keeps what was merged before it. -/
def mergeStack (h : Hierarchy) (mine theirs : Stack) : Stack × Except Failure Bool :=
  if mine.size ≠ theirs.size ∨ mine.slots ≠ theirs.slots then
    (mine, .error (.rejected (.merge (.stackSizes mine.bottomUp theirs.bottomUp))))
  else
    let (values, changed) := mergeEntries h.mergeStackEntry mine.bottomUp theirs.bottomUp
    ({ mine with values := values.reverse }, changed)

/-- Merges local variables and says whether that changed `mine`. A failure keeps what was merged
before it. -/
def mergeLocals (h : Hierarchy) (mine theirs : Array ValueType) :
    Array ValueType × Except Failure Bool :=
  if mine.size ≠ theirs.size then
    (mine, .error (.internal (.localCounts mine.size theirs.size)))
  else
    let (values, changed) := mergeEntries h.mergeLocal mine.toList theirs.toList
    (values.toArray, changed)

/-- Merges `g` into `f`, first the stacks, then the local variables, and says whether that changed
`f`. The receiver is uninitialized if it is on either side. A failure keeps what was merged before
it. -/
def merge (h : Hierarchy) (f g : Frame) : Frame × Except Failure Bool :=
  match mergeStack h f.stack g.stack with
  | (stack, .error e) => ({ f with stack }, .error e)
  | (stack, .ok stackChanged) =>
    match mergeLocals h f.locals g.locals with
    | (locals, .error e) => ({ f with stack, locals }, .error e)
    | (locals, .ok localsChanged) =>
      ({ stack, locals, thisUninitialized := f.thisUninitialized || g.thisUninitialized },
        .ok (stackChanged || localsChanged || (g.thisUninitialized && !f.thisUninitialized)))

end Frame

end Bytecode
