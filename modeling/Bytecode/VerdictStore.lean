import Bytecode.Report.Binary

/-!
A store of verdicts, each kept as bytes under a key. Bytes that cannot be read count as missing.

* `VerdictStore.get`: the report kept under a key, marked as kept;
* `VerdictStore.put`: the store with a verdict under a key;
* `VerdictStore.prune`: the store without what is older than a time.
-/
namespace Bytecode

def Status.code : Status → Int
  | .accepted => 0
  | .rejected => 1
  | .notYet => 2
  | .other code => code

/-- A kept verdict, with the time in seconds at which it was put. -/
structure StoredVerdict where
  key : String
  status : Int
  payload : List UInt8
  created : Int
  deriving DecidableEq, Repr

inductive StoreAction where
  | query
  | count
  | save
  | prune
  deriving DecidableEq, Repr

def StoreAction.closedMessage (a : StoreAction) : String :=
  (match a with
    | .query => "querying verdict: "
    | .count => "counting verdicts: "
    | .save => "saving verdict: "
    | .prune => "pruning verdicts: ") ++ "sql: database is closed"

/-- A store. A closed one keeps its verdicts, which are there again when it is opened. -/
structure VerdictStore where
  entries : List StoredVerdict := []
  isOpen : Bool := true

/-- How reports are turned into bytes and back. -/
structure Codec where
  encode : MethodReport → List UInt8
  decode? : List UInt8 → Option MethodReport

def Codec.cbor : Codec :=
  ⟨MethodReport.encode, MethodReport.decode?⟩

namespace VerdictStore

def whenOpen {α : Type} (s : VerdictStore) (a : StoreAction) (result : α) : Except StoreAction α :=
  if s.isOpen then .ok result else .error a

def find? (s : VerdictStore) (key : String) : Option StoredVerdict :=
  s.entries.find? (·.key == key)

def insert (s : VerdictStore) (v : StoredVerdict) : VerdictStore :=
  { s with entries := v :: s.entries.filter (·.key != v.key) }

def get (s : VerdictStore) (codec : Codec) (key : String) :
    Except StoreAction (Option MethodReport) :=
  s.whenOpen .query <|
    ((s.find? key).bind fun v => codec.decode? v.payload).map fun m => { m with cached := true }

def put (s : VerdictStore) (codec : Codec) (key : String) (v : Verdict) (now : Int) :
    Except StoreAction VerdictStore :=
  s.whenOpen .save (s.insert
    { key, status := v.status.code, payload := codec.encode (.ofVerdict v), created := now })

def size (s : VerdictStore) : Except StoreAction Nat :=
  s.whenOpen .count s.entries.length

def counts (s : VerdictStore) : Except StoreAction (List (Status × Nat)) :=
  let codes := (s.entries.map (·.status)).mergeSort
  s.whenOpen .count (codes.eraseReps.map fun c => (Status.ofCode c, codes.count c))

/-- The store without the verdicts put before a time, and how many those are. -/
def prune (s : VerdictStore) (cutoff : Int) : Except StoreAction (VerdictStore × Nat) :=
  let kept := s.entries.filter (cutoff ≤ ·.created)
  s.whenOpen .prune ({ s with entries := kept }, s.entries.length - kept.length)

end VerdictStore

end Bytecode
