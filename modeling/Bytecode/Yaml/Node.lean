import Bytecode.Yaml.Token

/-!
The nodes of a YAML document: scalars, sequences and mappings, each with the line it begins at.

`Node.parse?` reads the first document of a text.
-/
namespace Bytecode.Yaml

inductive Node where
  | scalar (line : Nat) (style : Style) (text : String)
  | sequence (line : Nat) (items : List Node)
  | mapping (line : Nat) (entries : List (Node × Node))
  deriving Repr

namespace Node

def line : Node → Nat
  | .scalar line _ _ | .sequence line _ | .mapping line _ => line

/-- The scalar that stands where nothing is written. -/
def missing (line : Nat) : Node :=
  .scalar line .plain ""

end Node

/-- What reads a value from the head of a list of tokens gives it with the rest. -/
abbrev TokenReader (α : Type) := List Token → Option (α × List Token)

def nextKind? (ts : List Token) : Option TokenKind :=
  ts.head?.map (·.kind)

/-- A node, unless the next token is one of those that follow an empty one. -/
def orMissing (after : List TokenKind) (line : Nat) (read : TokenReader Node) : TokenReader Node :=
  fun ts => (nextKind? ts).bind fun k =>
    if after.contains k then some (.missing line, ts) else read ts

mutual

/-- Reads a node. Block collections are only read if `block` is set, and entries without an
indentation of their own if `indentless` is. -/
def readNode (fuel : Nat) (block indentless : Bool) (ts : List Token) :
    Option (Node × List Token) :=
  match fuel, ts with
  | fuel + 1, t :: rest =>
    match t.kind with
    | .scalar style text => some (.scalar t.line style text, rest)
    | .flowSequenceStart =>
      (readFlowItems fuel true [] rest).map fun (items, ts) => (.sequence t.line items, ts)
    | .flowMappingStart =>
      (readFlowEntries fuel true [] rest).map fun (entries, ts) => (.mapping t.line entries, ts)
    | .blockEntry =>
      if indentless then
        (readIndentless fuel [] ts).map fun (items, ts) => (.sequence t.line items, ts)
      else none
    | .blockSequenceStart =>
      if block then
        (readBlockItems fuel [] rest).map fun (items, ts) => (.sequence t.line items, ts)
      else none
    | .blockMappingStart =>
      if block then
        (readBlockEntries fuel [] rest).map fun (entries, ts) => (.mapping t.line entries, ts)
      else none
    | _ => none
  | _, _ => none

def readBlockItems (fuel : Nat) (items : List Node) (ts : List Token) :
    Option (List Node × List Token) :=
  match fuel, ts with
  | fuel + 1, ⟨.blockEntry, line⟩ :: rest =>
    (orMissing [.blockEntry, .blockEnd] line (readNode fuel true false) rest).bind
      fun (item, ts) => readBlockItems fuel (item :: items) ts
  | _ + 1, ⟨.blockEnd, _⟩ :: rest => some (items.reverse, rest)
  | _, _ => none

/-- Reads the items of a block sequence that is not indented more than the mapping around it. -/
def readIndentless (fuel : Nat) (items : List Node) (ts : List Token) :
    Option (List Node × List Token) :=
  match fuel, ts with
  | fuel + 1, ⟨.blockEntry, line⟩ :: rest =>
    (orMissing [.blockEntry, .key, .value, .blockEnd] line (readNode fuel true false) rest).bind
      fun (item, ts) => readIndentless fuel (item :: items) ts
  | _ + 1, _ :: _ => some (items.reverse, ts)
  | _, _ => none

def readBlockEntries (fuel : Nat) (entries : List (Node × Node)) (ts : List Token) :
    Option (List (Node × Node) × List Token) :=
  match fuel, ts with
  | fuel + 1, ⟨.key, line⟩ :: rest => do
    let after : List TokenKind := [.key, .value, .blockEnd]
    let (key, ts) ← orMissing after line (readNode fuel true true) rest
    let (value, ts) ← match ts with
      | ⟨.value, line⟩ :: rest => orMissing after line (readNode fuel true true) rest
      | t :: _ => some (.missing t.line, ts)
      | [] => none
    readBlockEntries fuel ((key, value) :: entries) ts
  | _ + 1, ⟨.blockEnd, _⟩ :: rest => some (entries.reverse, rest)
  | _, _ => none

/-- Reads the items of a flow sequence. An item with a colon is a mapping with one entry. -/
def readFlowItems (fuel : Nat) (first : Bool) (items : List Node) (ts : List Token) :
    Option (List Node × List Token) :=
  match fuel, ts with
  | _ + 1, ⟨.flowSequenceEnd, _⟩ :: rest => some (items.reverse, rest)
  | fuel + 1, t :: rest => do
    let ts ← if first then some ts else if t.kind = .flowEntry then some rest else none
    match ts with
    | ⟨.flowSequenceEnd, _⟩ :: rest => some (items.reverse, rest)
    | ⟨.key, line⟩ :: rest =>
      let (key, ts) ← match rest with
        | t :: later =>
          if [.value, .flowEntry, .flowSequenceEnd].contains t.kind then
            some (.missing t.line, later)
          else readNode fuel false false rest
        | [] => none
      let (value, ts) ← match ts with
        | ⟨.value, line⟩ :: rest =>
          orMissing [.flowEntry, .flowSequenceEnd] line (readNode fuel false false) rest
        | t :: _ => some (.missing t.line, ts)
        | [] => none
      readFlowItems fuel false (.mapping line [(key, value)] :: items) ts
    | _ =>
      let (item, ts) ← readNode fuel false false ts
      readFlowItems fuel false (item :: items) ts
  | _, _ => none

def readFlowEntries (fuel : Nat) (first : Bool) (entries : List (Node × Node)) (ts : List Token) :
    Option (List (Node × Node) × List Token) :=
  match fuel, ts with
  | _ + 1, ⟨.flowMappingEnd, _⟩ :: rest => some (entries.reverse, rest)
  | fuel + 1, t :: rest => do
    let ts ← if first then some ts else if t.kind = .flowEntry then some rest else none
    match ts with
    | ⟨.flowMappingEnd, _⟩ :: rest => some (entries.reverse, rest)
    | ⟨.key, line⟩ :: rest =>
      let (key, ts) ← orMissing [.value, .flowEntry, .flowMappingEnd] line
        (readNode fuel false false) rest
      let (value, ts) ← match ts with
        | ⟨.value, line⟩ :: rest =>
          orMissing [.flowEntry, .flowMappingEnd] line (readNode fuel false false) rest
        | t :: _ => some (.missing t.line, ts)
        | [] => none
      readFlowEntries fuel false ((key, value) :: entries) ts
    | _ =>
      let (key, ts) ← readNode fuel false false ts
      let line := (ts.head?.map (·.line)).getD 0
      readFlowEntries fuel false ((key, .missing line) :: entries) ts
  | _, _ => none

end

/-- The first document of a text, which may be missing; `none` if the text is not YAML. -/
def Node.parse? (s : String) : Option (Option Node) := do
  let tokens := Token.ofText s
  let fuel := 2 * tokens.length + 2
  match tokens with
  | [] => none
  | ⟨.streamEnd, _⟩ :: _ => some none
  | ⟨.documentStart, line⟩ :: rest =>
    let (node, rest) ← orMissing [.documentStart, .documentEnd, .streamEnd] line
      (readNode fuel true false) rest
    if rest.isEmpty then none else some (some node)
  | tokens =>
    let (node, rest) ← readNode fuel true false tokens
    if rest.isEmpty then none else some (some node)

end Bytecode.Yaml
