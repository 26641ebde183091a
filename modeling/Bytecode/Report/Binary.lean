import Bytecode.Cbor
import Bytecode.Report

/-!
Reports in CBOR. A record is a map whose keys are the numbers of its fields, in ascending order;
an optional field that is empty is left out. Fields of other numbers are skipped when a report is
read, and a field that is missing is empty.
-/
namespace Bytecode

open Cbor (Item)

def Cbor.required (n : Nat) (value : Item) : List (Item × Item) :=
  [(.unsigned n, value)]

def Cbor.optional (n : Nat) (present : Bool) (value : Item) : List (Item × Item) :=
  if present then Cbor.required n value else []

def Cbor.texts (items : List String) : Item :=
  .array (items.map .ofString)

namespace Diagnostic

def toItem (d : Diagnostic) : Item :=
  .map (Cbor.required 1 (.ofString d.instruction) ++ Cbor.required 2 (.ofInt d.offset) ++
    Cbor.required 3 (.ofString d.stack) ++ Cbor.required 4 (.ofString d.locals) ++
    Cbor.optional 5 (!d.chain.isEmpty) (Cbor.texts d.chain) ++
    Cbor.optional 6 (d.elided != 0) (.ofInt d.elided))

def ofItem? (item : Item) : Option Diagnostic := do
  let fields ← item.record?
  return {
    instruction := ← Item.field? fields 1 Item.text?
    offset := ← Item.field? fields 2 Item.integer?
    stack := ← Item.field? fields 3 Item.text?
    locals := ← Item.field? fields 4 Item.text?
    chain := ← Item.field? fields 5 (Item.list? Item.text?)
    elided := ← Item.field? fields 6 Item.integer? }

end Diagnostic

namespace MethodReport

def toItem (m : MethodReport) : Item :=
  .map (Cbor.required 1 (.ofString m.owner) ++ Cbor.required 2 (.ofString m.method) ++
    Cbor.required 3 (.ofString m.descriptor) ++ Cbor.required 4 (.ofString m.status) ++
    Cbor.optional 5 (m.message != "") (.ofString m.message) ++
    (match m.trace with
      | some d => Cbor.required 6 d.toItem
      | none => []) ++
    Cbor.optional 7 (!m.warnings.isEmpty) (Cbor.texts m.warnings) ++
    Cbor.required 8 (.ofInt m.steps) ++ Cbor.required 9 (.ofString m.runId) ++
    Cbor.optional 10 m.cached (.ofBool m.cached))

/-- The method's report of an item. Null for the trace is none, null under a tag an empty one. -/
def ofItem? (item : Item) : Option MethodReport := do
  let fields ← item.record?
  return {
    owner := ← Item.field? fields 1 Item.text?
    method := ← Item.field? fields 2 Item.text?
    descriptor := ← Item.field? fields 3 Item.text?
    status := ← Item.field? fields 4 Item.text?
    message := ← Item.field? fields 5 Item.text?
    trace := ← Item.field? fields 6 fun x =>
      if x.isNull then some none else (Diagnostic.ofItem? x).map some
    warnings := ← Item.field? fields 7 (Item.list? Item.text?)
    steps := ← Item.field? fields 8 Item.integer?
    runId := ← Item.field? fields 9 Item.text?
    cached := ← Item.field? fields 10 Item.bool? }

def encode (m : MethodReport) : List UInt8 :=
  m.toItem.encode

def decode? (s : List UInt8) : Option MethodReport :=
  (Item.decode? s).bind ofItem?

end MethodReport

namespace Report

/-- A report as an item; one without methods has null for them. -/
def toItem (r : Report) : Item :=
  .map (Cbor.required 1 (.ofString r.runId) ++ Cbor.required 2 (.ofString r.tool) ++
    Cbor.required 3
      (if r.methods.isEmpty then .null else .array (r.methods.map MethodReport.toItem)))

def ofItem? (item : Item) : Option Report := do
  let fields ← item.record?
  return {
    runId := ← Item.field? fields 1 Item.text?
    tool := ← Item.field? fields 2 Item.text?
    methods := ← Item.field? fields 3 (Item.list? MethodReport.ofItem?) }

def encode (r : Report) : List UInt8 :=
  r.toItem.encode

def decode? (s : List UInt8) : Option Report :=
  (Item.decode? s).bind ofItem?

end Report

end Bytecode
