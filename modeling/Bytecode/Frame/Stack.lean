import Bytecode.InternalError

/-!
Operand stacks at verification time. A long or double is one entry of two slots. The slots never
exceed the limit, because `push` refuses to go past it.
-/
namespace Bytecode

/-- An operand stack: the entries, top first, and the limit on their slots. -/
structure Stack where
  values : List ValueType := []
  max : Int
  deriving DecidableEq, Repr

namespace Stack

def size (s : Stack) : Nat :=
  s.values.length

def slots (s : Stack) : Nat :=
  s.values.foldr (fun t n => t.size + n) 0

def bottomUp (s : Stack) : List ValueType :=
  s.values.reverse

def text (s : Stack) : String :=
  ValueType.listText s.bottomUp

def push (s : Stack) (t : ValueType) : Except InternalError Stack :=
  if t = .unknown then .error .pushUnknown
  else if (s.slots + t.size : Nat) > s.max then .error (.stackOverflow t s.bottomUp s.max)
  else .ok { s with values := t :: s.values }

/-- Adds entries one after another; the last one ends on top. -/
def pushAll (s : Stack) (types : List ValueType) : Except InternalError Stack :=
  types.foldlM push s

def pop (s : Stack) : Except InternalError (ValueType × Stack) :=
  match s.values with
  | [] => .error .emptyPop
  | t :: values => .ok (t, { s with values })

/-- The stack without its `n` top entries. A stack with fewer is left empty. -/
def drop (s : Stack) (n : Nat) : Stack :=
  { s with values := s.values.drop n }

def popN (s : Stack) (n : Nat) : Except InternalError Stack :=
  if n ≤ s.size then .ok (s.drop n) else .error .emptyPop

def peek (s : Stack) (i : Int) : Except InternalError ValueType :=
  match i with
  | .ofNat n =>
    match s.values[n]? with
    | some t => .ok t
    | none => .error (.peekRange i s.size)
  | .negSucc _ => .error (.peekRange i s.size)

def clear (s : Stack) : Stack :=
  { s with values := [] }

def initializeObject (s : Stack) (marker : ValueType) : Stack :=
  { s with values := s.values.map fun t => if t = marker then marker.initialized else t }

end Stack

end Bytecode
