import Bytecode.Report
import Bytecode.Yaml.Render

/-!
Reports as YAML documents. An optional field that is empty is left out.
-/
namespace Bytecode

open Yaml (Tree)

def Yaml.optional (name : String) (present : Bool) (value : Tree) : List (String × Tree) :=
  if present then [(name, value)] else []

def Yaml.texts (items : List String) : Tree :=
  .list (items.map .text)

def Diagnostic.toTree (d : Diagnostic) : Tree :=
  .record ([("instruction", .text d.instruction), ("offset", .int d.offset),
      ("stack", .text d.stack), ("locals", .text d.locals)] ++
    Yaml.optional "chain" (!d.chain.isEmpty) (Yaml.texts d.chain) ++
    Yaml.optional "elided" (d.elided != 0) (.int d.elided))

def MethodReport.toTree (m : MethodReport) : Tree :=
  .record ([("class", .text m.owner), ("method", .text m.method),
      ("descriptor", .text m.descriptor), ("status", .text m.status)] ++
    Yaml.optional "message" (m.message != "") (.text m.message) ++
    (match m.trace with
      | some d => [("trace", d.toTree)]
      | none => []) ++
    Yaml.optional "warnings" (!m.warnings.isEmpty) (Yaml.texts m.warnings) ++
    [("steps", .int m.steps), ("run_id", .text m.runId)] ++
    Yaml.optional "cached" m.cached (.bool m.cached))

def Report.document (r : Report) : String :=
  Tree.document [("run_id", .text r.runId), ("tool", .text r.tool),
    ("methods", .list (r.methods.map MethodReport.toTree))]

end Bytecode
