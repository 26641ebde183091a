import Bytecode.Report
import Bytecode.Text.Width

/-!
Reports as text: a line for each method, in columns that fit the widest entry, with the warnings
and the diagnostic of the method below it, and a line of counts at the end.
-/
namespace Bytecode

inductive Colour where
  | red
  | green
  | yellow
  | grey
  deriving DecidableEq, Repr

def Colour.code : Colour → String
  | .red => "\x1b[31m"
  | .green => "\x1b[32m"
  | .yellow => "\x1b[33m"
  | .grey => "\x1b[90m"

def paint (coloured : Bool) (c : Colour) (s : String) : String :=
  if coloured then c.code ++ s ++ "\x1b[0m" else s

namespace MethodReport

def statusColour (m : MethodReport) : Colour :=
  if m.accepted then .green else if m.rejected then .red else .yellow

def signature (m : MethodReport) : String :=
  m.method ++ m.descriptor

end MethodReport

structure ColumnWidths where
  owner : Nat
  method : Nat
  status : Nat

def widest (texts : List String) : Nat :=
  texts.foldl (fun n s => max n (Text.displayWidth s)) 0

def Diagnostic.reportLines (d : Diagnostic) (coloured : Bool) : List String :=
  ["    Instruction: " ++ d.instruction, "    Stack: " ++ d.stack, "    Locals: " ++ d.locals] ++
    if d.chain.isEmpty && d.elided ≤ 0 then []
    else "    Execution chain:" ::
      (if d.elided > 0 then
        ["      " ++ paint coloured .grey s!"... {d.elided} earlier instructions"] else []) ++
      d.chain.map ("      " ++ ·)

def MethodReport.lines (m : MethodReport) (widths : ColumnWidths) (coloured : Bool) : List String :=
  let line := Text.padEnd widths.owner m.owner ++ "  " ++
    Text.padEnd widths.method m.signature ++ "  " ++
    paint coloured m.statusColour (Text.padEnd widths.status m.status) ++
    (if m.cached then " " ++ paint coloured .grey "(cached)" else "") ++
    (if m.message = "" then "" else "  " ++ m.message)
  Text.trimEnd (· == ' ') line ::
    m.warnings.map (fun w => "    " ++ paint coloured .yellow "warning:" ++ " " ++ w) ++
    match m.trace with
    | some d => d.reportLines coloured
    | none => []

def Summary.text (s : Summary) : String :=
  s!"{s.total} methods: {s.accepted} accepted, {s.rejected} rejected, " ++
    s!"{s.notYet} not yet verified" ++
    (if s.cached > 0 then s!" ({s.cached} from cache)" else "")

namespace Report

def lines (r : Report) (coloured : Bool) : List String :=
  let widths : ColumnWidths :=
    { owner := widest (r.methods.map (·.owner))
      method := widest (r.methods.map (·.signature))
      status := widest (r.methods.map (·.status)) }
  r.methods.flatMap (·.lines widths coloured) ++ [r.summary.text]

def text (r : Report) (coloured : Bool) : String :=
  String.join ((r.lines coloured).map (· ++ "\n"))

end Report

end Bytecode
