import Bytecode.InternalError

/-!
Execution chains: the instructions on the way to the current one, with the subroutine calls among
them that have not returned.
-/
namespace Bytecode

/-- An execution chain: the cell of its newest instruction, or no cell. Instructions are named by
their numbers. A cell has the cell before it, the number of cells before it, and the cell of the
innermost call that is open after it. A call is that cell itself; after any other instruction it is
an earlier one, or there is none. -/
inductive CallChain where
  | empty
  | call (node : Nat) (prev : CallChain) (depth : Nat)
  | step (node : Nat) (prev opened : CallChain) (depth : Nat)
  deriving DecidableEq, Repr

namespace CallChain

def node? : CallChain → Option Nat
  | .empty => none
  | .call node .. | .step node .. => some node

def prev : CallChain → CallChain
  | .empty => .empty
  | .call _ prev _ | .step _ prev .. => prev

/-- The cell of the innermost call that is open. -/
def opened : CallChain → CallChain
  | .empty => .empty
  | .call node prev depth => .call node prev depth
  | .step _ _ opened _ => opened

def openCall? (c : CallChain) : Option Nat :=
  c.opened.node?

/-- The context of an instruction that runs after the chain. -/
def key (c : CallChain) : CallKey :=
  match c.openCall? with
  | some node => .call node
  | none => .topLevel

def length : CallChain → Nat
  | .empty => 0
  | .call _ _ depth | .step _ _ _ depth => depth + 1

/-- One instruction more. A call opens a level. A return closes the innermost one: what is open
after it is what was open before that call. -/
def extend (c : CallChain) (node : Nat) (isCall isReturn : Bool) : Except InternalError CallChain :=
  if isCall then .ok (.call node c c.length)
  else if isReturn then
    match c.opened with
    | .empty => .error (.noOpenCall node)
    | cell => .ok (.step node c cell.prev.opened c.length)
  else .ok (.step node c c.opened c.length)

/-- Puts the newest instructions before those in `out`, at most `keep` of them. -/
def collect (c : CallChain) (keep : Nat) (out : List Nat) : List Nat :=
  match keep, c with
  | 0, _ | _, .empty => out
  | keep + 1, .call node prev _ | keep + 1, .step node prev .. => prev.collect keep (node :: out)

/-- The newest instructions, oldest first, at most `limit` of them unless the limit is not positive;
and the number of those left out. -/
def newest (c : CallChain) (limit : Int) : List Nat × Nat :=
  let keep := if 0 < limit ∧ limit < c.length then limit.toNat else c.length
  (c.collect keep [], c.length - keep)

end CallChain

end Bytecode
