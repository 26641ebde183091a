import Bytecode.Batch
import Bytecode.CommandLine.Flags
import Bytecode.Config
import Bytecode.Report.Format
import Bytecode.VerdictStore.File

/-!
The command line: verifies the methods of the class sets in files and reports on them.

* `CommandLine.run`: what a run with given arguments prints, and its exit status;
* `CommandError.message`: the wording of what can go wrong.
-/
namespace Bytecode

inductive CommandError where
  | noFiles
  | config (error : ConfigError)
  | invalidOptions (settings : List String)
  | unreadable (path : String) (error : FileError)
  | classSet (path : String) (error : ClassSetError)
  | batch (error : BatchError)
  | unwritable (path : String) (error : FileError)
  deriving DecidableEq, Repr

def CommandError.message : CommandError → Utf8Text
  | .noFiles => .string "no fixture files given"
  | .config e => .string e.message
  | .invalidOptions settings =>
    .string ("invalid options: out of bounds: " ++ ", ".intercalate settings)
  | .unreadable path e => .string ("cannot read " ++ path ++ ": " ++ e.readMessage path)
  | .classSet path e => e.message path
  | .batch e => .string e.message
  | .unwritable path e => .string ("creating report: " ++ e.writeMessage path)

structure Outcome where
  exit : Nat
  output : Utf8Text := .string ""
  errors : Utf8Text := .string ""
  deriving DecidableEq, Repr

namespace Outcome

/-- Every method is accepted, or judged as expected. -/
def accepted : Nat := 0

/-- Some method is not. -/
def refused : Nat := 1

/-- There is no judgement. -/
def failed : Nat := 2

def errorLines (lines : List Utf8Text) : Utf8Text :=
  .ofBytes (lines.flatMap fun l =>
    ("bcverify: ".toUTF8.toList ++ l.bytes) ++ "\n".toUTF8.toList)

def ofError (e : CommandError) : Outcome :=
  { exit := failed, errors := errorLines [e.message] }

/-- The outcome of a run whose flags cannot be read; one that asks for help is no failure. -/
def ofFlagError (e : FlagError) : Outcome :=
  match e.message? with
  | none => { exit := accepted, errors := .string Flags.usage }
  | some message => { exit := failed, errors := .string (message ++ "\n" ++ Flags.usage) }

end Outcome

namespace CommandLine

def version : String := "dev"

def maxVerbosity : Int := 5

def override (c : Config) (f : Flags) : Config :=
  { c with
    format := if f.format == "" then c.format else f.format
    colour := if f.colour == "" then c.colour else f.colour
    workers := if f.workers > 0 then f.workers else c.workers
    strict := c.strict && !f.lenient
    storeEnabled := c.storeEnabled && !f.noStore
    verbosity := min ((c.verbosity + f.verbosity).bmod (Nat.pow 2 64)) maxVerbosity }

/-- The methods whose verdict is not the expected one, a line for each. -/
def mismatches (r : Report) (s : ClassSet) : List String :=
  r.methods.filterMap fun m =>
    let key := m.owner ++ "." ++ m.method ++ m.descriptor
    match s.expected? key with
    | some wanted =>
      if m.status == wanted then none
      else some (key ++ ": " ++ m.status ++ ", expected " ++ wanted)
    | none => none

/-- The outcome once the report is written; `output` is what of it is printed. -/
def judge (expect : Bool) (r : Report) (s : ClassSet) (output : Utf8Text) : Outcome :=
  if expect then
    let lines := mismatches r s
    { exit := if lines.isEmpty then Outcome.accepted else Outcome.refused
      output
      errors := Outcome.errorLines (lines.map .string) }
  else { exit := if r.ok then Outcome.accepted else Outcome.refused, output }

variable {m : Type → Type} [Monad m]

/-- The configuration of a run: of the file that the flags name or the nearest one, with the flags in
front of it. -/
def configure (files : FileSystem m) (f : Flags) : m (Except CommandError Config) := do
  let found ← if f.config == "" then Config.nearest files "."
    else Except.map some <$> Config.load files f.config
  return do
    let c := override ((← found.mapError .config).getD {}) f
    if !c.violations.isEmpty then .error (.invalidOptions c.violations)
    return c

def loadAll (files : FileSystem m) (s : ClassSet) : List String → m (Except CommandError ClassSet)
  | [] => return .ok s
  | path :: rest => do
    match ← files.read path with
    | .error e => return .error (.unreadable path e)
    | .ok (.malformed ..) => return .error (.classSet path .notYaml)
    | .ok (.string text) =>
      match s.add text with
      | .error e => return .error (.classSet path e)
      | .ok s => loadAll files s rest

/-- Verifies a class set with the store of a configuration, which is saved afterwards. A store that
cannot be opened is left out. -/
def verifySet (files : FileSystem m) (runId : String) (now : Int) (c : Config)
    (selection : Selection) (s : ClassSet) : m (Except BatchError Report) := do
  let store ← if c.storeEnabled then VerdictStore.openAt files c.storePath else pure none
  let (report, store) := s.verify .cbor { options := c.verifyOptions, runId, now } selection store
  if let some store := store then
    discard (store.saveAt files c.storePath)
  return report

/-- Writes a report to a file or gives it back to be printed, if the path is empty. -/
def deliver (files : FileSystem m) (path : String) (report : Utf8Text) :
    m (Except CommandError Utf8Text) := do
  if path == "" then return .ok report
  match ← files.write path report with
  | .ok () => return .ok (.string "")
  | .error e => return .error (.unwritable path e)

/-- Verifies the class sets in files and reports on them. Colours are only for those who ask for them
always. -/
def verifyFiles (files : FileSystem m) (runId : String) (now : Int) (f : Flags)
    (paths : List String) : m (Except CommandError Outcome) := do
  match ← configure files f with
  | .error e => return .error e
  | .ok c =>
  match ← loadAll files {} paths with
  | .error e => return .error e
  | .ok s =>
  let selection : Selection :=
    { classes := Selection.names f.classes, methods := Selection.names f.methods }
  match ← verifySet files runId now c selection s with
  | .error e => return .error (.batch e)
  | .ok r =>
  let format := (ReportFormat.ofName? c.format).getD .text
  match ← deliver files f.output (r.output format (c.colour == "always")) with
  | .error e => return .error e
  | .ok output => return .ok (judge f.expect r s output)

def run (files : FileSystem m) (runId : String) (now : Int) (arguments : List String) :
    m Outcome := do
  match Flags.parse {} arguments with
  | .error e => return .ofFlagError e
  | .ok (f, paths) =>
    if f.version then
      return { exit := Outcome.accepted, output := .string ("bcverify " ++ version ++ "\n") }
    else if paths.isEmpty then return .ofError .noFiles
    else match ← verifyFiles files runId now f paths with
      | .ok outcome => return outcome
      | .error e => return .ofError e

end CommandLine

end Bytecode
