import Bytecode.CallKey
import Bytecode.ClassTable
import Bytecode.Instruction
import Bytecode.ValueType

/-!
Failures that are no verdict on the code: a class that cannot be loaded, or a promise of an earlier
check that does not hold.
-/
namespace Bytecode

inductive InternalError where
  | loadClass (name : String) (cause : HierarchyError)
  | loadSuperclasses (of : String) (cause : HierarchyError)
  | loadCommonSuperclass (a b : ValueType) (cause : HierarchyError)
  | pushUnknown
  | stackOverflow (pushed : ValueType) (stack : List ValueType) (max : Int)
  | emptyPop
  | peekRange (index : Int) (size : Nat)
  | localRange (index : Int) (size : Nat)
  | localCounts (mine theirs : Nat)
  | noOpenCall (node : Nat)
  | emptyCode
  | noInstruction (offset : Int)
  | handlerStart (index : Nat) (offset : Int)
  | handlerStop (index : Nat) (offset : Int)
  | handlerEntry (index : Nat) (offset : Int)
  | handlerCatch (index : Nat) (cause : PoolError)
  | deadCode (node : Nat)
  | topLevelReturn (ins : Instruction)
  | poolOperand (ins : Instruction) (cause : PoolError)
  | descriptorOperand (ins : Instruction) (cause : DescriptorError)
  | memberOperand (ins : Instruction) (cause : HierarchyError)
  | noStackEffect (ins : Instruction)
  | noRule (ins : Instruction)
  | constantKind (ins : Instruction) (tag : Option Tag)
  | wrongArray (ins : Instruction) (found : ValueType)
  | wrongStack (ins : Instruction) (stack : List ValueType)
  | noOutFrame (ins : Instruction) (key : CallKey)
  | noReturnAddress (ins : Instruction) (found : ValueType)
  | strayReturn (ins : Instruction) (offset : Int)
  | returnWithoutCall (ins : Instruction)
  | returnElsewhere (ins : Instruction) (offset : Int) (call : Instruction) (expected : Nat)
  | returnToNoCaller (ins : Instruction) (offset : Int)
  | unsettled
  deriving DecidableEq, Repr

/-- What a failure says, without the words that every failure starts with. -/
def InternalError.detail : InternalError → String
  | .loadClass name cause => "cannot load " ++ name ++ ": " ++ cause.message
  | .loadSuperclasses of cause =>
    "cannot load the superclasses of " ++ of ++ ": " ++ cause.message
  | .loadCommonSuperclass a b cause =>
    s!"cannot load the superclasses of {a} and {b}: " ++ cause.message
  | .pushUnknown => "pushing unknown onto the operand stack"
  | .stackOverflow pushed stack max =>
    s!"operand stack overflow pushing {pushed} onto {ValueType.listText stack} (max {max})"
  | .emptyPop => "pop from an empty operand stack"
  | .peekRange index size => s!"peek({index}) on an operand stack of {size} entries"
  | .localRange index size => s!"local variable {index} out of range (max {size})"
  | .localCounts mine theirs =>
    s!"merging local variable arrays of {mine} and {theirs} slots"
  | .noOpenCall node =>
    s!"return from subroutine at node {node} with no open call in the execution chain"
  | .emptyCode => "building a graph for empty code"
  | .noInstruction offset => s!"no instruction at offset {offset}"
  | .handlerStart index offset =>
    s!"exception handler {index} starts inside an instruction at {offset}"
  | .handlerStop index offset =>
    s!"exception handler {index} ends inside an instruction at {offset}"
  | .handlerEntry index offset =>
    s!"exception handler {index} enters inside an instruction at {offset}"
  | .handlerCatch index cause => s!"exception handler {index} catch type: " ++ cause.message
  | .deadCode node => s!"node {node} is dead code and belongs to no subroutine"
  | .topLevelReturn ins => ins.text ++ " returns from the top level"
  | .poolOperand ins cause => ins.text ++ ": " ++ cause.message
  | .descriptorOperand ins cause => ins.text ++ ": " ++ cause.message
  | .memberOperand ins cause => ins.text ++ ": " ++ cause.message
  | .noStackEffect ins => "no stack effect for " ++ ins.text
  | .noRule ins => "no constraint rule for " ++ ins.text
  | .constantKind ins tag => ins.text ++ " loads a " ++ Tag.nameOrNone tag ++ " constant"
  | .wrongArray ins found => ins.text ++ s!" on {found}"
  | .wrongStack ins stack => ins.text ++ " on " ++ ValueType.listText stack
  | .noOutFrame ins key => ins.text ++ " was queued without an out-frame for " ++ key.text
  | .noReturnAddress ins found => ins.text ++ s!" reads {found} instead of a return address"
  | .strayReturn ins offset =>
    ins.text ++ s!" returns to offset {offset}, which is not an instruction"
  | .returnWithoutCall ins => ins.text ++ " executed with no open subroutine call"
  | .returnElsewhere ins offset call expected =>
    ins.text ++ s!" returns to {offset} but the open call " ++ call.text ++
      s!" continues at {expected}"
  | .returnToNoCaller ins offset =>
    ins.text ++ s!" returns to {offset}, which follows none of its callers"
  | .unsettled => "the data flow does not settle"

def InternalError.message (e : InternalError) : String :=
  "internal verifier error: " ++ e.detail

end Bytecode
