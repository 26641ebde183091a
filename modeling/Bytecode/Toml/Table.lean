import Bytecode.Toml.Grammar

/-!
The table that the statements of a TOML document build.

* `Document.parse?`: the table of a text and the keys that the text gives, in order;
* `Key.text`: a key as it is written.

A table that comes to be only because a longer key runs through it is *implicit*: it may still be
opened once. Every other key is given once, but an array may be replaced.
-/
namespace Bytecode.Toml

inductive Value where
  | string (s : String)
  | integer (n : Int)
  | bool (b : Bool)
  | float
  | time
  | array
  | table (fields : List (String × Value))
  | tables (items : List (List (String × Value)))

abbrev Fields := List (String × Value)

structure Document where
  root : Fields := []
  implicit : List Key := []
  arrays : List Key := []
  /-- The keys given, the last one first. -/
  keys : List Key := []

/-! ### Fields by key -/

namespace Fields

def set (fields : Fields) (name : String) (value : Value) : Fields :=
  if fields.any (·.1 == name) then
    fields.map fun f => if f.1 == name then (name, value) else f
  else fields ++ [(name, value)]

/-- The fields of the table under a key; in an array of tables, of its last one. -/
def at? (fields : Fields) : Key → Option Fields
  | [] => some fields
  | name :: rest =>
    match fields.lookup name with
    | some (.table inner) => at? inner rest
    | some (.tables items) => items.getLast?.bind (at? · rest)
    | _ => none

def change (f : Fields → Fields) (fields : Fields) : Key → Fields
  | [] => f fields
  | name :: rest =>
    match fields.lookup name with
    | some (.table inner) => fields.set name (.table (change f inner rest))
    | some (.tables items) =>
      fields.set name (.tables (items.dropLast ++ [change f (items.getLast?.getD []) rest]))
    | _ => fields

end Fields

namespace Document

def write (d : Document) (context : Key) (name : String) (value : Value) : Document :=
  { d with root := d.root.change (·.set name value) context }

def markImplicit (d : Document) (key : Key) : Document :=
  { d with implicit := key :: d.implicit }

def clearImplicit (d : Document) (key : Key) : Document :=
  { d with implicit := d.implicit.filter (· != key) }

/-- The document that remembers whether the value of a key is an array. -/
def noteArray (d : Document) (key : Key) (isArray : Bool) : Document :=
  let others := d.arrays.filter (· != key)
  { d with arrays := if isArray then key :: others else others }

def noteKey (d : Document) (key : Key) : Document :=
  { d with keys := key :: d.keys }

/-- Gives a name in the table of a key a value. An implicit table stays as it is. -/
def assign (d : Document) (context : Key) (name : String) (value : Value) : Option Document := do
  let key := context ++ [name]
  let fields ← d.root.at? context
  if (fields.lookup name).isNone then some (d.write context name value)
  else if d.arrays.contains key then some ((d.clearImplicit key).write context name value)
  else if d.implicit.contains key then some (d.clearImplicit key)
  else none

/-- Makes sure that every part of a key is a table, and makes the missing ones. -/
def enter (d : Document) (context : Key) : Key → Option Document
  | [] => some d
  | name :: rest => do
    let key := context ++ [name]
    let fields ← d.root.at? context
    match fields.lookup name with
    | none => enter ((d.markImplicit key).write context name (.table [])) key rest
    | some (.table _) | some (.tables _) => enter d key rest
    | some _ => none

/-- Opens the table of a key, or a further table of an array of tables. -/
def openTable (d : Document) (key : Key) (isArray : Bool) : Option Document := do
  let name ← key.getLast?
  let context := key.dropLast
  let d ← d.enter [] context
  if isArray then
    match (← d.root.at? context).lookup name with
    | none => some (d.write context name (.tables [[]]))
    | some (.tables items) => some (d.write context name (.tables (items ++ [[]])))
    | some _ => none
  else d.assign context name (.table [])

/-- Opens the tables that a key of several parts runs through, from a table on. -/
def openParts (d : Document) (context : Key) : Key → Option Document
  | [] => some d
  | name :: rest => do
    let key := context ++ [name]
    openParts (← (d.markImplicit key).openTable key false) key rest

mutual

/-- The document after a value under a name has been read, and the value. -/
def evaluate (d : Document) (context : Key) (name : String) (inArray : Bool) :
    Literal → Option (Document × Value)
  | .string s => some (d, .string s)
  | .integer n => some (d, .integer n)
  | .bool b => some (d, .bool b)
  | .float => some (d, .float)
  | .time => some (d, .time)
  | .array items => do
    let d ← evaluateItems (d.noteArray (context ++ [name]) true) context name items
    return (d, .array)
  | .inlineTable entries => do
    let key := context ++ [name]
    let d ← (d.markImplicit key).openTable key inArray
    let d ← evaluateEntries d key entries
    return (d, .table (← d.root.at? key))

def evaluateItems (d : Document) (context : Key) (name : String) :
    List Literal → Option Document
  | [] => some d
  | item :: rest => do
    let (d, _) ← evaluate d context name true item
    evaluateItems d context name rest

def evaluateEntries (d : Document) (context : Key) : List (Key × Literal) → Option Document
  | [] => some d
  | (key, literal) :: rest => do
    let name ← key.getLast?
    let inner := context ++ key.dropLast
    let d ← d.openParts context key.dropLast
    let (d, value) ← evaluate (d.noteKey (inner ++ [name])) inner name false literal
    let d ← d.assign inner name value
    let isArray := match value with
      | .array => true
      | _ => false
    evaluateEntries (d.noteArray (inner ++ [name]) isArray) context rest

end

/-- The document after statements, of which the first stand in the table of a key. -/
def build (d : Document) (context : Key) : List Statement → Option Document
  | [] => some d
  | .table key :: rest => do
    let d ← d.openTable key false
    build ((d.noteArray key false).noteKey key) key rest
  | .tableArray key :: rest => do
    let d ← d.openTable key true
    build ((d.noteArray key false).noteKey key) key rest
  | .entry key literal :: rest => do
    build (← d.evaluateEntries context [(key, literal)]) context rest

def parse? (text : String) : Option Document := do
  build {} [] (← Statement.parse? text)

end Document

/-! ### Keys as text -/

def escapeChar (c : Char) : String :=
  match c with
  | '"' => "\\\""
  | '\\' => "\\\\"
  | '\t' => "\\t"
  | '\n' => "\\n"
  | '\r' => "\\r"
  | c =>
    if c.toNat == 8 then "\\b"
    else if c.toNat == 12 then "\\f"
    else if c.toNat < 0x20 || c.toNat == 0x7f then "\\u" ++ Text.hexDigits 4 c.toNat
    else String.singleton c

/-- A part of a key, in quotes unless it can stand without. -/
def Key.partText (part : String) : String :=
  if part != "" && part.toList.all isBare then part
  else "\"" ++ String.join (part.toList.map escapeChar) ++ "\""

def Key.text (key : Key) : String :=
  ".".intercalate (key.map partText)

end Bytecode.Toml
