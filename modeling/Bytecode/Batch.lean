import Bytecode.ClassSet
import Bytecode.Fingerprint
import Bytecode.VerdictStore

/-!
Verification of a class set, with verdicts that are kept from one time to the next.

* `Selection`: which methods are wanted;
* `Batch.verifyClass`: the reports of methods of a class, from a store as far as it has them;
* `ClassSet.verify`: the report of a class set, and the store with the new verdicts.
-/
namespace Bytecode

/-! ### Selections -/

/-- Which classes and methods are wanted; `none` for all. -/
structure Selection where
  classes : Option (List String) := none
  methods : Option (List String) := none

namespace Selection

/-- The names between commas, without blanks around them; `none` for an empty text. -/
def names (text : String) : Option (List String) :=
  if text == "" then none
  else some (((Text.splitOn ',' text.toList).map fun s => Text.trim (String.ofList s)).filter
    (· != ""))

/-- The methods wanted of a class. A method is named with or without its descriptor. -/
def methodsOf (s : Selection) (c : Class) : List Method :=
  if s.classes.all (·.contains c.name) then
    c.methods.filter fun m =>
      s.methods.all fun l => l.contains m.name || l.contains (m.name ++ m.descriptor)
  else []

def isLimited (s : Selection) : Bool :=
  s.classes.isSome || s.methods.isSome

end Selection

/-! ### Batches -/

inductive BatchError where
  | noMatch
  | failed (owner : String) (error : RunError)
  deriving DecidableEq, Repr

def BatchError.message : BatchError → String
  | .noMatch => "no methods match the -class and -method filters"
  | .failed owner e => "class " ++ owner ++ ": " ++ e.message

/-- What a run is given beside the classes. -/
structure RunSettings where
  options : VerifyOptions
  runId : String
  /-- The time, in seconds, that is kept with new verdicts. -/
  now : Int
  /-- The methods of a class that find the run called off. -/
  cancelled : Class → Method → Bool := fun _ _ => false

/-- What the verification of many methods shares. -/
structure Batch extends RunSettings where
  table : ClassTable

namespace Batch

/-- Verifies methods of a class, up to the first failure. A verdict in the store is taken from there;
the others are put into it. `hierarchy` is the fingerprint of the class table. -/
def verifyClass (b : Batch) (codec : Codec) (hierarchy : List UInt8) (store : Option VerdictStore)
    (c : Class) (methods : List Method) :
    Except RunError (List MethodReport × Option VerdictStore) := do
  let judged ← methods.mapM fun m => do
    let key := store.map fun _ =>
      Fingerprint.verdictKey (Fingerprint.method c m) hierarchy b.options
    let stored : Option MethodReport := do ((← store).get codec (← key)).toOption.join
    match stored with
    | some report => return (report, none)
    | none =>
      let v ← verifyUnless (b.cancelled c m) b.table b.options b.runId c m
      return (MethodReport.ofVerdict v, key.map (·, v))
  let fresh := judged.filterMap (·.2)
  return (judged.map (·.1), store.map fun s => fresh.foldl (fun s (key, v) =>
    (s.put codec key v b.now).toOption.getD s) s)

/-- Verifies the methods wanted of classes, up to the first failure. The store keeps the verdicts of
the classes before a failure. -/
def verifyClasses (b : Batch) (codec : Codec) (hierarchy : List UInt8) (selection : Selection)
    (store : Option VerdictStore) :
    List Class → Except BatchError (List MethodReport) × Option VerdictStore
  | [] => (.ok [], store)
  | c :: rest =>
    match b.verifyClass codec hierarchy store c (selection.methodsOf c) with
    | .error e => (.error (.failed c.name e), store)
    | .ok (reports, store) =>
      let (others, store) := b.verifyClasses codec hierarchy selection store rest
      (others.map (reports ++ ·), store)

end Batch

/-- The report on the methods wanted of a class set, and the store with the new verdicts. -/
def ClassSet.verify (s : ClassSet) (codec : Codec) (run : RunSettings) (selection : Selection)
    (store : Option VerdictStore) : Except BatchError Report × Option VerdictStore :=
  if selection.isLimited && s.classes.all fun c => (selection.methodsOf c).isEmpty then
    (.error .noMatch, store)
  else
    let b : Batch := { run with table := s.table }
    let hierarchy := if store.isSome then Fingerprint.hierarchy s.table else []
    let (reports, store) := b.verifyClasses codec hierarchy selection store s.classes
    (reports.map (Report.ofMethods run.runId), store)

end Bytecode
