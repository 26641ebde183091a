import Bytecode.Verdict

/-!
Reports: the verdicts of one run in the form in which they are shown and kept.

* `MethodReport.ofVerdict`: the report on a verdict;
* `Report.summary`: how many methods have which status.
-/
namespace Bytecode

/-- The report on one method. The status is a word, which a stored report may have from elsewhere. -/
structure MethodReport where
  owner : String := ""
  method : String := ""
  descriptor : String := ""
  status : String := ""
  message : String := ""
  trace : Option Diagnostic := none
  warnings : List String := []
  steps : Int := 0
  runId : String := ""
  cached : Bool := false
  deriving DecidableEq, Repr

namespace MethodReport

/-- The report on a verdict. The descriptor starts at the first parenthesis. -/
def ofVerdict (v : Verdict) : MethodReport :=
  { owner := v.owner
    method := String.ofList (v.method.toList.takeWhile (· ≠ '('))
    descriptor := String.ofList (v.method.toList.dropWhile (· ≠ '('))
    status := v.status.name
    message := v.message
    trace := v.diagnostic
    warnings := v.warnings
    steps := v.steps
    runId := v.runId }

def accepted (m : MethodReport) : Bool :=
  m.status == Status.accepted.name

def rejected (m : MethodReport) : Bool :=
  m.status == Status.rejected.name

end MethodReport

structure Report where
  runId : String := ""
  tool : String := ""
  methods : List MethodReport := []
  deriving DecidableEq, Repr

/-- How many methods have which status, and how many verdicts were kept from earlier runs. -/
structure Summary where
  accepted : Nat
  rejected : Nat
  notYet : Nat
  cached : Nat
  deriving DecidableEq, Repr

def Summary.total (s : Summary) : Nat :=
  s.accepted + s.rejected + s.notYet

namespace Report

def toolName : String := "bcverify"

def ofMethods (runId : String) (methods : List MethodReport) : Report :=
  { runId, tool := toolName, methods }

/-- The counts of a report. A status that is neither accepted nor rejected is not yet verified. -/
def summary (r : Report) : Summary :=
  { accepted := r.methods.countP (·.accepted)
    rejected := r.methods.countP (·.rejected)
    notYet := r.methods.countP fun m => !m.accepted && !m.rejected
    cached := r.methods.countP (·.cached) }

def ok (r : Report) : Bool :=
  r.summary.rejected == 0 && r.summary.notYet == 0

end Report

end Bytecode
