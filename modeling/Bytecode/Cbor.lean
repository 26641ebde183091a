import Bytecode.Octets

/-!
CBOR, a binary format for structured data.

* `Item` is the data, and `Item.encode` writes it with the shortest heads;
* `Item.decode?` reads a byte string that holds one item and nothing else. It accepts indefinite
  lengths and any width of head, and limits how deep items nest and how long they are;
* `Item.text?`, `Item.integer?`, … read an item as a value of a type, in which tags are skipped and
  null stands for the default value.
-/
namespace Bytecode.Cbor

inductive Item where
  | unsigned (n : Nat)
  /-- The number `-1 - n`. -/
  | negative (n : Nat)
  | bytes (content : List UInt8)
  /-- A text; `none` if its bytes are not well-formed. -/
  | text (content : Option String)
  | array (items : List Item)
  | map (entries : List (Item × Item))
  | tag (number : Nat) (content : Item)
  | simple (n : Nat)
  | float (bytes : List UInt8)
  deriving Repr

namespace Item

def null : Item := .simple 22

def ofBool (b : Bool) : Item :=
  .simple (if b then 21 else 20)

def ofString (s : String) : Item := .text (some s)

def ofInt : Int → Item
  | .ofNat n => .unsigned n
  | .negSucc n => .negative n

end Item

/-! ### Writing -/

/-- The head of an item: its major type and a number, in the fewest bytes. -/
def head (major n : Nat) : List UInt8 :=
  let first (info : Nat) : UInt8 := (32 * major + info).toUInt8
  if n < 24 then [first n]
  else if n < Nat.pow 2 8 then first 24 :: bigEndian 1 n
  else if n < Nat.pow 2 16 then first 25 :: bigEndian 2 n
  else if n < Nat.pow 2 32 then first 26 :: bigEndian 4 n
  else first 27 :: bigEndian 8 n

mutual

def Item.encode : Item → List UInt8
  | .unsigned n => head 0 n
  | .negative n => head 1 n
  | .bytes content => head 2 content.length ++ content
  | .text content =>
    let bytes := (content.getD "").toUTF8.toList
    head 3 bytes.length ++ bytes
  | .array items => head 4 items.length ++ encodeItems items
  | .map entries => head 5 entries.length ++ encodeEntries entries
  | .tag number content => head 6 number ++ content.encode
  | .simple n => head 7 n
  | .float bytes => (if bytes.length = 2 then 0xf9 else if bytes.length = 4 then 0xfa else 0xfb) ::
      bytes

def encodeItems : List Item → List UInt8
  | [] => []
  | item :: rest => item.encode ++ encodeItems rest

def encodeEntries : List (Item × Item) → List UInt8
  | [] => []
  | entry :: rest => encodeEntry entry ++ encodeEntries rest

def encodeEntry : Item × Item → List UInt8
  | (key, value) => key.encode ++ value.encode

end

/-! ### Reading -/

/-- What reads a value from the head of a byte string gives it with the rest. -/
abbrev Reader (α : Type) := List UInt8 → Option (α × List UInt8)

def maxElements : Nat := 131072

def maxLevels : Nat := 32

structure Head where
  major : Nat
  info : Nat
  value : Nat

def Head.indefinite (h : Head) : Bool :=
  h.info == 31

def readBytes (n : Nat) : Reader (List UInt8) := fun s =>
  let bytes := s.take n
  if bytes.length < n then none else some (bytes, s.drop n)

/-- Reads a head. Only a string, an array or a map can be without a length, and a simple value of
two bytes is at least 32. -/
def readHead : Reader Head
  | [] => none
  | b :: s =>
    let major := b.toNat / 32
    let info := b.toNat % 32
    if info < 24 then some (⟨major, info, info⟩, s)
    else if info < 28 then do
      let (bytes, s) ← readBytes (Nat.pow 2 (info - 24)) s
      let value := ofBigEndian bytes
      if major = 7 ∧ info = 24 ∧ value < 32 then none
      else some (⟨major, info, value⟩, s)
    else if info = 31 ∧ 2 ≤ major ∧ major ≤ 5 then some (⟨major, info, info⟩, s)
    else none

/-- Reads the chunks of a string without a length, of the same major type as the string. -/
def readChunks (major : Nat) : (fuel : Nat) → List (List UInt8) → Reader (List (List UInt8))
  | 0, _, _ => none
  | _ + 1, chunks, 0xff :: s => some (chunks.reverse, s)
  | fuel + 1, chunks, s => do
    let (h, s) ← readHead s
    if h.major ≠ major ∨ h.indefinite then none
    let (chunk, s) ← readBytes h.value s
    readChunks major fuel (chunk :: chunks) s

/-- Reads a string in chunks; one with a length is one chunk. -/
def readString (h : Head) : Reader (List (List UInt8)) := fun s =>
  if h.indefinite then readChunks h.major (s.length + 1) [] s
  else (readBytes h.value s).map fun (chunk, s) => ([chunk], s)

def readMany (item : Reader Item) : (count : Nat) → List Item → Reader (List Item)
  | 0, items, s => some (items.reverse, s)
  | count + 1, items, s => do
    let (x, s) ← item s
    readMany item count (x :: items) s

def readUntilBreak (item : Reader Item) : (fuel : Nat) → List Item → Reader (List Item)
  | 0, _, _ => none
  | _ + 1, items, 0xff :: s => some (items.reverse, s)
  | fuel + 1, items, s => do
    let (x, s) ← item s
    readUntilBreak item fuel (x :: items) s

/-- Reads the items inside an array, or inside a map, where an element is `width` items. -/
def readElements (item : Reader Item) (h : Head) (width : Nat) : Reader (List Item) := fun s => do
  if h.indefinite then
    let (items, s) ← readUntilBreak item (s.length + 1) [] s
    if items.length > maxElements * width then none else some (items, s)
  else if h.value > maxElements then none
  else readMany item (h.value * width) [] s

def pairs? : List Item → Option (List (Item × Item))
  | [] => some []
  | key :: value :: rest => (pairs? rest).map ((key, value) :: ·)
  | [_] => none

/-- The text of chunks, each of which must be well-formed. -/
def chunksText (chunks : List (List UInt8)) : Option String :=
  (chunks.mapM fun c => String.fromUTF8? ⟨c.toArray⟩).map String.join

/-- Reads an item with a given head that is no tag. What it holds is read by `inner`, if there may
be a level below. -/
def readContent (inner : Option (Reader Item)) (h : Head) : Reader Item := fun s =>
  match h.major with
  | 0 => some (.unsigned h.value, s)
  | 1 => some (.negative h.value, s)
  | 2 => (readString h s).map fun (chunks, s) => (.bytes chunks.flatten, s)
  | 3 => (readString h s).map fun (chunks, s) => (.text (chunksText chunks), s)
  | 4 => do
    let (items, s) ← readElements (← inner) h 1 s
    some (.array items, s)
  | 5 => do
    let (items, s) ← readElements (← inner) h 2 s
    some (.map (← pairs? items), s)
  | 7 =>
    if 25 ≤ h.info then some (.float (bigEndian (Nat.pow 2 (h.info - 24)) h.value), s)
    else some (.simple h.value, s)
  | _ => none

/-- Reads an item. A tag on a tag counts as a level. -/
def readAny (inner : Option (Reader Item)) : Reader Item := fun s => do
  let (h, s) ← readHead s
  if h.major = 6 then
    match s with
    | [] => none
    | b :: _ =>
      let (content, s) ←
        if b.toNat / 32 = 6 then (← inner) s
        else (readHead s).bind fun (h, s) => readContent inner h s
      some (.tag h.value content, s)
  else readContent inner h s

def readItem : (levels : Nat) → Reader Item
  | 0 => readAny none
  | levels + 1 => readAny (some (readItem levels))

def Item.decode? (s : List UInt8) : Option Item :=
  match readItem maxLevels s with
  | some (item, []) => some item
  | _ => none

/-! ### Items as values of a type -/

namespace Item

def isNull : Item → Bool
  | .simple n => n == 22 || n == 23
  | _ => false

/-- May a tag stand on its content? Tags for times and great numbers are checked. -/
def tagFits (number : Nat) (content : Item) : Bool :=
  match number, content with
  | 0, .text _ | 1, .unsigned _ | 1, .negative _ | 1, .float _ | 2, .bytes _ | 3, .bytes _ =>
    true
  | 0, _ | 1, _ | 2, _ | 3, _ => false
  | _, _ => true

/-- An item without its tags; a tagged great number becomes a number. -/
def untag : Item → Option Item
  | .tag number content =>
    if tagFits number content then
      match number, content with
      | 2, .bytes b => some (.unsigned (ofBigEndian b))
      | 3, .bytes b => some (.negative (ofBigEndian b))
      | _, content => content.untag
    else none
  | item => some item

def text? (item : Item) : Option String :=
  match item.untag with
  | some (.text content) => content
  | some x => if x.isNull then some "" else none
  | none => none

/-- The integer of an item, if 64 bits hold it. A simple value counts as its number. -/
def integer? (item : Item) : Option Int :=
  match item.untag with
  | some (.unsigned n) => if n < Nat.pow 2 63 then some n else none
  | some (.negative n) => if n < Nat.pow 2 63 then some (.negSucc n) else none
  | some (.simple n) =>
    if n = 20 ∨ n = 21 then none else if n = 22 ∨ n = 23 then some 0 else some n
  | _ => none

def bool? (item : Item) : Option Bool :=
  match item.untag with
  | some (.simple 20) => some false
  | some (.simple 21) => some true
  | some x => if x.isNull then some false else none
  | none => none

def list? {α : Type} (member : Item → Option α) (item : Item) : Option (List α) :=
  match item.untag with
  | some (.array items) => items.mapM member
  | some x => if x.isNull then some [] else none
  | none => none

def keyNumber? : Item → Option Int
  | .unsigned n => some (if n < Nat.pow 2 63 then (n : Int) else (n : Int) - Nat.pow 2 64)
  | .negative n => some (if n < Nat.pow 2 63 then -1 - (n : Int) else (Nat.pow 2 64 : Int) - 1 - n)
  | _ => none

/-- The entries of an item that is a record. A text among the keys must be well-formed. -/
def record? (item : Item) : Option (List (Item × Item)) :=
  match item.untag with
  | some (.map entries) =>
    if entries.all (fun (key, _) => match key with | .text none => false | _ => true) then
      some entries
    else none
  | some x => if x.isNull then some [] else none
  | none => none

/-- Is a key the field `n`, as a number or as a text? -/
def isField (n : Nat) (key : Item) : Bool :=
  match key with
  | .text content => content == some (toString n)
  | key => key.keyNumber? == some (n : Int)

/-- The first value of a field of a record, read by `read`; null if there is none. -/
def field? {α : Type} (entries : List (Item × Item)) (n : Nat) (read : Item → Option α) :
    Option α :=
  read (((entries.find? fun (key, _) => key.isField n).map Prod.snd).getD .null)

end Item

end Bytecode.Cbor
