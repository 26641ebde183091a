/-!
The context of a frame: the top level of a method, or the subroutine that a call has entered and
not left.
-/
namespace Bytecode

/-- A context. A call is named by the number of its instruction. -/
inductive CallKey where
  | topLevel
  | call (node : Nat)
  deriving DecidableEq, Repr

namespace CallKey

def text : CallKey → String
  | .topLevel => "top-level"
  | .call node => s!"call@{node}"

/-- The order of contexts: the top level first, then the calls in code order. -/
def le : CallKey → CallKey → Bool
  | .topLevel, _ => true
  | .call _, .topLevel => false
  | .call a, .call b => a ≤ b

end CallKey

end Bytecode
