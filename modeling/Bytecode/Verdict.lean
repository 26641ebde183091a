import Bytecode.Dataflow

/-!
Verdicts on methods.

* `verify`: the verdict on a method, or the failure that keeps it from one;
* `verifyTraced`: the same, with the frames that data flow left;
* `verifyAll`: the verdicts on several methods of a class.
-/
namespace Bytecode

/-- The status of a method. A number that stands for none is kept as it is. -/
inductive Status where
  | accepted
  | rejected
  /-- A check before data flow failed. -/
  | notYet
  | other (code : Int)
  deriving DecidableEq, Repr

namespace Status

def ofCode : Int → Status
  | 0 => .accepted
  | 1 => .rejected
  | 2 => .notYet
  | code => .other code

def name : Status → String
  | .accepted => "accepted"
  | .rejected => "rejected"
  | .notYet => "not yet verified"
  | .other code => s!"Status({code})"

end Status

/-- Where a rejection happened: the instruction, the frame it saw, and the instructions on the way
to it, oldest first, with the number of those left out. -/
structure Diagnostic where
  instruction : String := ""
  offset : Int := 0
  stack : String := ""
  locals : String := ""
  chain : List String := []
  elided : Int := 0
  deriving DecidableEq, Repr

def Diagnostic.text (d : Diagnostic) : String :=
  let chain :=
    if d.chain.isEmpty && d.elided ≤ 0 then ""
    else "Execution chain:\n" ++
      (if d.elided > 0 then s!"  ... {d.elided} earlier instructions\n" else "") ++
      String.join (d.chain.map fun line => "  " ++ line ++ "\n")
  "Instruction: " ++ d.instruction ++ "\nStack: " ++ d.stack ++ "\nLocals: " ++ d.locals ++ "\n" ++
    chain

/-- The verdict on a method, which is named by name and descriptor. -/
structure Verdict where
  runId : String := ""
  owner : String := ""
  method : String := ""
  status : Status := .accepted
  message : String := ""
  diagnostic : Option Diagnostic := none
  warnings : List String := []
  steps : Int := 0
  deriving DecidableEq, Repr

namespace Verdict

def ok (v : Verdict) : Bool :=
  v.status = .accepted

def text (v : Verdict) : String :=
  v.owner ++ "." ++ v.method ++ ": " ++ v.status.name ++
    (if v.message = "" then "" else ": " ++ v.message) ++
    String.join (v.warnings.map fun w => "\n  warning: " ++ w) ++
    match v.diagnostic with
    | some d => "\n" ++ d.text
    | none => ""

end Verdict

structure VerifyOptions where
  /-- No exception handler may guard a subroutine. -/
  strict : Bool := true
  /-- The instructions that a diagnostic keeps; without a limit if it is not positive. -/
  traceLimit : Int := 32
  deriving DecidableEq, Repr

def Visit.diagnostic (v : Visit) (g : FlowGraph) (limit : Int) : Diagnostic :=
  let ins := g.instruction v.node
  let (nodes, elided) := v.chain.newest limit
  { instruction := ins.text, offset := ins.pos
    stack := v.frame.stack.text, locals := v.frame.localsText
    chain := nodes.map fun n => (g.instruction n).text, elided }

/-- A verification: its verdict or failure, and the frames of data flow if it began. -/
structure Verification where
  verdict : Except InternalError Verdict
  flow : Option FlowState

/-- Verifies a method of a class, and keeps the frames. -/
def verifyTraced (h : Hierarchy) (options : VerifyOptions) (runId : String) (owner : Class)
    (m : Method) : Verification :=
  let start : Verdict := { runId, owner := owner.name, method := m.text }
  if !m.hasCode then ⟨.ok start, none⟩
  else match m.prepare owner.pool with
    | .error fault => ⟨.ok { start with status := .notYet, message := fault.message }, none⟩
    | .ok prepared =>
      match FlowGraph.build prepared.code m.handlers owner.pool options.strict with
      | .error (.internal e) => ⟨.error e, none⟩
      | .error (.rejected r) => ⟨.ok { start with status := .rejected, message := r.message }, none⟩
      | .ok g =>
        let c : MethodContext := { hierarchy := h, owner, method := m, type := prepared.type }
        let (s, outcome) := c.solve g
        let verdict : Verdict :=
          { start with warnings := s.warnings.map Warning.message, steps := s.steps }
        match outcome with
        | .ok () => ⟨.ok verdict, some s⟩
        | .error (.internal e) => ⟨.error e, some s⟩
        | .error (.rejected r) =>
          let diagnostic := s.last.map (·.diagnostic g options.traceLimit)
          ⟨.ok { verdict with status := .rejected, message := r.message, diagnostic }, some s⟩

def verify (h : Hierarchy) (options : VerifyOptions) (runId : String) (owner : Class)
    (m : Method) : Except InternalError Verdict :=
  (verifyTraced h options runId owner m).verdict

/-- Why a run over several methods has no verdicts. -/
inductive RunError where
  | internal (error : InternalError)
  /-- A method finds the run called off. -/
  | cancelled
  deriving DecidableEq, Repr

def RunError.message : RunError → String
  | .internal e => e.message
  | .cancelled => "context canceled"

/-- Verifies a method, unless it finds the run called off. -/
def verifyUnless (cancelled : Bool) (h : Hierarchy) (options : VerifyOptions) (runId : String)
    (owner : Class) (m : Method) : Except RunError Verdict :=
  if cancelled then .error .cancelled
  else (verify h options runId owner m).mapError .internal

/-- Verifies methods of a class, some of which may find the run called off. -/
def verifyAll (cancelled : Method → Bool) (h : Hierarchy) (options : VerifyOptions) (runId : String)
    (owner : Class) (methods : List Method) : Except RunError (List Verdict) :=
  methods.mapM fun m => verifyUnless (cancelled m) h options runId owner m

end Bytecode
