import Bytecode.FileSystem
import Bytecode.Toml.Table
import Bytecode.Verdict

/-!
The configuration of a run, kept in a TOML file.

* `Config.parse`: the configuration that a text gives, with defaults for what it leaves out;
* `Config.violations`: the settings that are out of bounds;
* `Config.load`, `Config.nearest`: the configuration of a file, and of the nearest one.
-/
namespace Bytecode

/-- A configuration. Paths in it are relative to its directory. -/
structure Config where
  strict : Bool := true
  traceLimit : Int := 32
  workers : Int := 1
  verbosity : Int := 0
  logFile : String := ""
  storeEnabled : Bool := true
  storeFile : String := ".bcverify/cache.db"
  format : String := "text"
  colour : String := "auto"
  /-- The directory of the file; empty if there is none. -/
  directory : String := ""
  deriving DecidableEq, Repr

/-- Why there is no configuration; each with the path of the file. -/
inductive ConfigError where
  | unreadable (path : String) (error : FileError)
  | notToml (path : String)
  | unknownKeys (path : String) (keys : List String)
  | invalid (path : String) (settings : List String)
  deriving DecidableEq, Repr

namespace Config

def fileName : String := "bcverify.toml"

/-! ### Settings -/

/-- A setting: the table and the name it is given under, and how its value is taken. -/
structure Setting where
  table : String
  name : String
  assign : Config → Toml.Value → Option Config

def Setting.bool (table name : String) (assign : Config → Bool → Config) : Setting where
  table
  name
  assign c
    | .bool b => some (assign c b)
    | _ => none

def Setting.integer (table name : String) (assign : Config → Int → Config) : Setting where
  table
  name
  assign c
    | .integer n => some (assign c n)
    | _ => none

def Setting.string (table name : String) (assign : Config → String → Config) : Setting where
  table
  name
  assign c
    | .string s => some (assign c s)
    | _ => none

def settings : List Setting := [
  .bool "verifier" "strict-subroutine-handlers" fun c strict => { c with strict },
  .integer "verifier" "trace-limit" fun c traceLimit => { c with traceLimit },
  .integer "verifier" "workers" fun c workers => { c with workers },
  .integer "log" "verbosity" fun c verbosity => { c with verbosity },
  .string "log" "file" fun c logFile => { c with logFile },
  .bool "cache" "enabled" fun c storeEnabled => { c with storeEnabled },
  .string "cache" "path" fun c storeFile => { c with storeFile },
  .string "output" "format" fun c format => { c with format },
  .string "output" "color" fun c colour => { c with colour }]

/-- A letter without regard to case. Two letters beyond ASCII are also forms of `k` and `s`. -/
def foldCase (c : Char) : Char :=
  if c.toNat == 0x212a then 'k' else if c.toNat == 0x17f then 's' else c.toLower

def sameName (a b : String) : Bool :=
  a.toList.map foldCase == b.toList.map foldCase

def isKnown : Toml.Key → Bool
  | [table] => settings.any fun s => sameName s.table table
  | [table, name] => settings.any fun s => sameName s.table table && sameName s.name name
  | _ => false

/-- Takes the values of one table of settings; nothing if one is of the wrong type. -/
def assignTable (c : Config) (table : String) (fields : Toml.Fields) : Option Config :=
  fields.foldlM (fun c (name, value) =>
    match settings.find? fun s => sameName s.table table && sameName s.name name with
    | some s => s.assign c value
    | none => some c) c

/-- Takes the values of a document; nothing if one is of the wrong type. -/
def assignAll (c : Config) (fields : Toml.Fields) : Option Config :=
  fields.foldlM (fun c (table, value) =>
    if isKnown [table] then
      match value with
      | .table fields => c.assignTable table fields
      | _ => none
    else some c) c

/-! ### Bounds -/

/-- The settings that are out of bounds, in alphabetical order. -/
def violations (c : Config) : List String :=
  let check (ok : Bool) (setting : String) : List String := if ok then [] else [setting]
  check (!c.storeEnabled || c.storeFile != "") "cache.path" ++
  check (-1 ≤ c.verbosity && c.verbosity ≤ 5) "log.verbosity" ++
  check (["auto", "always", "never"].contains c.colour) "output.color" ++
  check (["text", "yaml", "cbor"].contains c.format) "output.format" ++
  check (0 ≤ c.traceLimit) "verifier.trace-limit" ++
  check (1 ≤ c.workers && c.workers ≤ 256) "verifier.workers"

def parse (path directory : String) (text : Utf8Text) : Except ConfigError Config := do
  let .string text := text | .error (.notToml path)
  let some document := Toml.Document.parse? text | .error (.notToml path)
  let some c := assignAll { directory } document.root | .error (.notToml path)
  let unknown := (document.keys.filter (!isKnown ·)).map Toml.Key.text
  if !unknown.isEmpty then .error (.unknownKeys path (unknown.mergeSort fun a b => a ≤ b))
  if !c.violations.isEmpty then .error (.invalid path c.violations)
  return c

/-! ### What a configuration says -/

/-- A path of the configuration, from its directory on if it has one. -/
def locate (c : Config) (path : String) : String :=
  if Path.isAbsolute path || c.directory == "" then path else Path.join c.directory path

def storePath (c : Config) : String :=
  c.locate c.storeFile

def logPath? (c : Config) : Option String :=
  if c.logFile == "" then none else some (c.locate c.logFile)

def verifyOptions (c : Config) : VerifyOptions :=
  { strict := c.strict, traceLimit := c.traceLimit }

/-! ### Files -/

variable {m : Type → Type} [Monad m]

def load (files : FileSystem m) (path : String) : m (Except ConfigError Config) := do
  match ← files.read path with
  | .error e => return .error (.unreadable path e)
  | .ok text => return parse path (Path.absolute files.directory (Path.parent path)) text

def firstIn (files : FileSystem m) : List String → m (Except ConfigError (Option Config))
  | [] => return .ok none
  | directory :: rest => do
    let path := Path.join directory fileName
    if ← files.present path then return (← load files path).map some
    else firstIn files rest

/-- The configuration in a directory or the nearest one above it, if there is one. -/
def nearest (files : FileSystem m) (directory : String) : m (Except ConfigError (Option Config)) :=
  firstIn files (Path.ancestors (Path.absolute files.directory directory))

end Config

def ConfigError.message : ConfigError → String
  | .unreadable path e => "cannot read " ++ path ++ ": " ++ e.readMessage path
  | .notToml path => "parse error in " ++ path ++ ": not TOML, or a value of the wrong type"
  | .unknownKeys path keys => "unknown keys in " ++ path ++ ": " ++ ", ".intercalate keys
  | .invalid path settings =>
    "invalid configuration in " ++ path ++ ": out of bounds: " ++ ", ".intercalate settings

end Bytecode
