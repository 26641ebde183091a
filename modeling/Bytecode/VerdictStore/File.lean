import Bytecode.FileSystem
import Bytecode.VerdictStore

/-!
Stores of verdicts in files.

* `VerdictStore.encode`, `VerdictStore.decode?`: a store as bytes, a list of its verdicts in CBOR;
* `VerdictStore.openAt`, `VerdictStore.saveAt`: the store in a file.
-/
namespace Bytecode

open Cbor (Item)

def StoredVerdict.toItem (v : StoredVerdict) : Item :=
  .array [.ofString v.key, .ofInt v.status, .bytes v.payload, .ofInt v.created]

def StoredVerdict.ofItem? : Item → Option StoredVerdict
  | .array [key, status, .bytes payload, created] => do
    return { key := ← key.text?, status := ← status.integer?, payload, created := ← created.integer? }
  | _ => none

namespace VerdictStore

def encode (s : VerdictStore) : List UInt8 :=
  (Item.array (s.entries.map StoredVerdict.toItem)).encode

/-- The open store that bytes hold; no bytes hold an empty one. -/
def decode? (bytes : List UInt8) : Option VerdictStore := do
  if bytes.isEmpty then return {}
  return { entries := ← (← Item.decode? bytes).list? StoredVerdict.ofItem? }

variable {m : Type → Type} [Monad m]

def saveAt (files : FileSystem m) (path : String) (s : VerdictStore) : m (Except FileError Unit) :=
  files.write path (.ofBytes s.encode)

/-- Opens the store in a file, which is created with its directories if there is none; nothing if
that is not possible or the file holds something else. -/
def openAt (files : FileSystem m) (path : String) : m (Option VerdictStore) := do
  if !(← files.makeDirectory (Path.parent path)) then return none
  match ← files.read path with
  | .ok content => return decode? content.bytes
  | .error .missing =>
    match ← saveAt files path {} with
    | .ok () => return some {}
    | .error _ => return none
  | .error _ => return none

end VerdictStore

end Bytecode
