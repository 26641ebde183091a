import Bytecode.Text.Blank
import Bytecode.Text.Numeral

/-!
The flags of the command line.

* `Flags.parse`: the flags at the head of the arguments, and the arguments after them;
* `Flags.usage`: the help text;
* `FlagError.message`: the wording of what can go wrong.

A flag is an argument `-name` or `--name`, with its value after `=` or, unless it is a switch, in the
next argument. The first argument that is no flag ends them, and so does `--`.
-/
namespace Bytecode

structure Flags where
  config : String := ""
  classes : String := ""
  methods : String := ""
  format : String := ""
  output : String := ""
  colour : String := ""
  verbosity : Int := 0
  noStore : Bool := false
  lenient : Bool := false
  workers : Int := 0
  expect : Bool := false
  version : Bool := false
  deriving DecidableEq, Repr

inductive ValueError where
  | malformed
  | outOfRange
  | noCount (value : String)
  deriving DecidableEq, Repr

inductive FlagError where
  | help
  | badSyntax (argument : String)
  | undefined (name : String)
  | missingValue (name : String)
  | badValue (name value : String) (error : ValueError)
  | badSwitch (name value : String) (error : ValueError)
  deriving DecidableEq, Repr

def ValueError.message : ValueError → String
  | .malformed => "parse error"
  | .outOfRange => "value out of range"
  | .noCount value => "expected a count, got " ++ Text.quote value

/-- The wording of an error; a wish for help is none. -/
def FlagError.message? : FlagError → Option String
  | .help => none
  | .badSyntax argument => some ("bad flag syntax: " ++ argument)
  | .undefined name => some ("flag provided but not defined: -" ++ name)
  | .missingValue name => some ("flag needs an argument: -" ++ name)
  | .badValue name value e =>
    some ("invalid value " ++ Text.quote value ++ " for flag -" ++ name ++ ": " ++ e.message)
  | .badSwitch name value e =>
    some ("invalid boolean value " ++ Text.quote value ++ " for -" ++ name ++ ": " ++ e.message)

namespace Flags

/-! ### Values -/

def truth (text : String) : Except ValueError Bool :=
  if ["1", "t", "T", "TRUE", "true", "True"].contains text then .ok true
  else if ["0", "f", "F", "FALSE", "false", "False"].contains text then .ok false
  else .error .malformed

/-- The number that digits continue in a base, underscores skipped. It must stay below `2 ^ 64`, which
is found out before anything that follows. -/
def digits (base n : Nat) : List Char → Except ValueError Nat
  | [] => .ok n
  | '_' :: rest => digits base n rest
  | c :: rest =>
    match Text.hexValue? c with
    | some d =>
      if d ≥ base then .error .malformed
      else if n * base + d ≥ Nat.pow 2 64 then .error .outOfRange
      else digits base (n * base + d) rest
    | none => .error .malformed

def signed (negative : Bool) (n : Nat) : Except ValueError Int :=
  if negative then if n ≤ Nat.pow 2 63 then .ok (-(n : Int)) else .error .outOfRange
  else if n < Nat.pow 2 63 then .ok n else .error .outOfRange

/-- The number that a numeral writes: decimal, or in the base that a leading zero announces. -/
def number (text : String) : Except ValueError Int := do
  let (negative, s) := Text.splitSign text.toList
  let n ← match s with
    | [] => .error .malformed
    | '0' :: c :: d :: rest =>
      match Text.baseOfMark? c with
      | some base => digits base 0 (d :: rest)
      | none => digits 8 0 (c :: d :: rest)
    | '0' :: rest => digits 8 0 rest
    | s => digits 10 0 s
  if s.contains '_' && !Text.underscoresSeparate s then .error .malformed
  signed negative n

/-- A count after a further value: `true` adds one, and a decimal number replaces it. -/
def count (n : Int) (text : String) : Except ValueError Int :=
  if text == "true" then .ok ((n + 1).bmod (Nat.pow 2 64))
  else
    let (negative, s) := Text.splitSign text.toList
    let n := if s.isEmpty || s.contains '_' then .error .malformed else
      (digits 10 0 s).bind (signed negative)
    n.mapError fun _ => .noCount text

/-! ### The flags there are -/

inductive Kind where
  | text (set : Flags → String → Flags)
  | number (set : Flags → Int → Flags)
  /-- A switch, which is given without a value as a rule. -/
  | switch (set : Flags → Bool → Flags)
  /-- A switch that counts how often it is given. -/
  | counter (get : Flags → Int) (set : Flags → Int → Flags)

structure Flag where
  name : String
  kind : Kind
  help : String

/-- The flags, in alphabetical order. -/
def all : List Flag := [
  ⟨"class", .text fun f classes => { f with classes },
    "Comma-separated classes to verify (default: all)"⟩,
  ⟨"color", .text fun f colour => { f with colour }, "Color text output: auto, always, never"⟩,
  ⟨"config", .text fun f config => { f with config },
    "Configuration file (default: nearest bcverify.toml)"⟩,
  ⟨"expect", .switch fun f expect => { f with expect },
    "Compare verdicts with the fixtures' expect keys"⟩,
  ⟨"format", .text fun f format => { f with format }, "Report format: text, yaml, cbor"⟩,
  ⟨"lenient-handlers", .switch fun f lenient => { f with lenient },
    "Allow exception handlers inside subroutines"⟩,
  ⟨"method", .text fun f methods => { f with methods },
    "Comma-separated methods to verify, by name or name+descriptor"⟩,
  ⟨"no-cache", .switch fun f noStore => { f with noStore },
    "Do not read or write the verdict cache"⟩,
  ⟨"o", .text fun f output => { f with output },
    "Write the report to this file instead of stdout"⟩,
  ⟨"v", .counter (·.verbosity) fun f verbosity => { f with verbosity },
    "Increase log verbosity (repeatable)"⟩,
  ⟨"version", .switch fun f version => { f with version }, "Print the version and exit"⟩,
  ⟨"workers", .number fun f workers => { f with workers },
    "Methods verified at once (default from configuration)"⟩]

def Flag.text (f : Flag) : String :=
  let head := "  -" ++ f.name ++ match f.kind with
    | .text _ => " string"
    | .number _ => " int"
    | .switch _ | .counter _ _ => ""
  head ++ (if head.length ≤ 4 then "\t" else "\n    \t") ++ f.help ++ "\n"

def usage : String :=
  "Usage: bcverify [options] fixture.yaml...\n\n" ++
  "Assembles the classes in the given fixtures and verifies their methods.\n\n" ++
  "Options:\n" ++ String.join (all.map Flag.text) ++
  "\nExamples:\n" ++
  "  bcverify zoo.yaml                       # Verify every method\n" ++
  "  bcverify -class zoo/Cat zoo.yaml        # One class\n" ++
  "  bcverify -method 'count(I)I' zoo.yaml   # One method\n" ++
  "  bcverify -format yaml -o out.yaml *.yaml\n" ++
  "  bcverify -expect -no-cache testdata/*.yaml\n" ++
  "\nExit status is 0 when every method is accepted, 1 when some are not, 2 on errors.\n"

/-! ### Arguments -/

/-- The flag in an argument, without its dashes; `none` if the argument is none. -/
def flagText? (argument : String) : Option (List Char) :=
  match argument.toList with
  | '-' :: '-' :: rest => some rest
  | '-' :: c :: rest => some (c :: rest)
  | _ => none

/-- The name of a flag, and its value if it has one. An equals sign at the start is part of neither. -/
def splitValue (flag : List Char) : String × Option String :=
  let name := flag.take 1 ++ (flag.drop 1).takeWhile (· != '=')
  match flag.drop name.length with
  | _ :: value => (String.ofList name, some (String.ofList value))
  | [] => (String.ofList name, none)

def setSwitch {α : Type} (f : Flags) (name value : String) (set : Flags → α → Flags)
    (read : String → Except ValueError α) : Except FlagError Flags :=
  match read value with
  | .ok x => .ok (set f x)
  | .error e => .error (.badSwitch name value e)

def setValue {α : Type} (f : Flags) (name value : String) (set : Flags → α → Flags)
    (read : String → Except ValueError α) : Except FlagError Flags :=
  match read value with
  | .ok x => .ok (set f x)
  | .error e => .error (.badValue name value e)

/-- The flags at the head of arguments, on top of those given before, and the arguments after
them. -/
def parse (f : Flags) : List String → Except FlagError (Flags × List String)
  | [] => .ok (f, [])
  | argument :: rest =>
    match flagText? argument with
    | none => .ok (f, argument :: rest)
    | some flag =>
      if argument == "--" then .ok (f, rest)
      else if flag.head?.all fun c => c == '-' || c == '=' then .error (.badSyntax argument)
      else
        let (name, value) := splitValue flag
        match all.find? (·.name == name) with
        | none => .error (if name == "help" || name == "h" then .help else .undefined name)
        | some { kind := .switch set, .. } =>
          match f.setSwitch name (value.getD "true") set truth with
          | .ok f => parse f rest
          | .error e => .error e
        | some { kind := .counter get set, .. } =>
          match f.setSwitch name (value.getD "true") set (count (get f)) with
          | .ok f => parse f rest
          | .error e => .error e
        | some { kind := .text set, .. } => withValue f name value rest set .ok
        | some { kind := .number set, .. } => withValue f name value rest set number
where
  withValue {α : Type} (f : Flags) (name : String) (value : Option String) (rest : List String)
      (set : Flags → α → Flags) (read : String → Except ValueError α) :
      Except FlagError (Flags × List String) :=
    match value, rest with
    | some value, rest =>
      match f.setValue name value set read with
      | .ok f => parse f rest
      | .error e => .error e
    | none, value :: rest =>
      match f.setValue name value set read with
      | .ok f => parse f rest
      | .error e => .error e
    | none, [] => .error (.missingValue name)

end Flags

end Bytecode
