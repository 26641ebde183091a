import Bytecode.Report.Binary
import Bytecode.Report.Document
import Bytecode.Report.Text

/-!
The formats in which a report is written.
-/
namespace Bytecode

inductive ReportFormat where
  | text
  | yaml
  | cbor
  deriving DecidableEq, Repr

/-- The format of a name; no name stands for text. -/
def ReportFormat.ofName? (name : String) : Option ReportFormat :=
  match name with
  | "" | "text" => some .text
  | "yaml" => some .yaml
  | "cbor" => some .cbor
  | _ => none

def ReportFormat.unknownName (name : String) : String :=
  "report: unknown format " ++ Text.quote name

/-- A report in a format. Colours are for text only. -/
def Report.output (r : Report) (format : ReportFormat) (coloured : Bool) : Utf8Text :=
  match format with
  | .text => .string (r.text coloured)
  | .yaml => .string r.document
  | .cbor => .ofBytes r.encode

end Bytecode
