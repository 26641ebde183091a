import Bytecode.Yaml.Scalar

/-!
The tokens of a YAML text. Indentation opens and closes block collections, and a key is only
recognized by the colon after it, so its token is put in front of what has been read.

`Token.ofText` gives the tokens that a reader may look at.
-/
namespace Bytecode.Yaml

inductive TokenKind where
  | streamEnd
  | documentStart
  | documentEnd
  | blockSequenceStart
  | blockMappingStart
  | blockEnd
  | flowSequenceStart
  | flowSequenceEnd
  | flowMappingStart
  | flowMappingEnd
  | blockEntry
  | flowEntry
  | key
  | value
  | scalar (style : Style) (text : String)
  deriving DecidableEq, Repr

structure Token where
  kind : TokenKind
  line : Nat
  deriving DecidableEq, Repr

/-- A place where a key may have begun: the number of its first token, and whether nothing else may
stand there. -/
structure KeyPlace where
  required : Bool
  number : Nat
  line : Nat
  column : Nat
  index : Nat

structure Lexer where
  cursor : Cursor
  flow : Nat := 0
  /-- The column of the innermost block collection, -1 outside, and those around it. -/
  indent : Int := -1
  indents : List Int := []
  keyAllowed : Bool := true
  /-- Where a key may have begun, innermost flow collection first. -/
  keys : List (Option KeyPlace) := [none]
  /-- The tokens, the last one first, and their number. -/
  tokens : List Token := []
  count : Nat := 0

namespace Lexer

def push (l : Lexer) (kind : TokenKind) (line : Nat) : Lexer :=
  { l with tokens := ⟨kind, line + 1⟩ :: l.tokens, count := l.count + 1 }

def take (l : Lexer) (kind : TokenKind) (n : Nat) : Lexer :=
  { l.push kind l.cursor.line with cursor := l.cursor.advance n }

def insert (l : Lexer) (number : Nat) (kind : TokenKind) (line : Nat) : Lexer :=
  let after := l.count - number
  { l with
    tokens := l.tokens.take after ++ ⟨kind, line + 1⟩ :: l.tokens.drop after
    count := l.count + 1 }

/-! ### Indentation -/

/-- Closes the block collections that are indented by more than a column. -/
def closeBlocks (column : Int) (l : Lexer) : (indents : List Int) → Lexer
  | [] => { l with indents := [] }
  | outer :: rest =>
    if l.indent > column then
      closeBlocks column { l.push .blockEnd l.cursor.line with indent := outer } rest
    else { l with indents := outer :: rest }

/-- Closes the block collections that end before a column; none inside a flow collection. -/
def unroll (l : Lexer) (column : Int) : Lexer :=
  if l.flow > 0 then l else closeBlocks column l l.indents

/-- Opens a block collection at a column that is further right, in front of the token of a
number. -/
def roll (l : Lexer) (column : Nat) (number : Nat) (kind : TokenKind) (line : Nat) : Lexer :=
  if l.flow == 0 && l.indent < column then
    { l with indent := column, indents := l.indent :: l.indents }.insert number kind line
  else l

/-! ### Keys -/

/-- Gives up the key that may have begun; `none` if it was required. -/
def dropKey (l : Lexer) : Option Lexer :=
  match l.keys with
  | some k :: rest => if k.required then none else some { l with keys := none :: rest }
  | _ => some l

def saveKey (l : Lexer) : Option Lexer :=
  if !l.keyAllowed then some l
  else do
    let l ← l.dropKey
    let place : KeyPlace :=
      { required := l.flow == 0 && l.indent == (l.cursor.column : Int)
        number := l.count
        line := l.cursor.line
        column := l.cursor.column
        index := l.cursor.index }
    return { l with keys := some place :: l.keys.tail }

/-- The key that ends here. A key is on one line and not longer than 1024 characters; `none` if one
that is required is not. -/
def endingKey (l : Lexer) : Option (Option KeyPlace) :=
  match l.keys with
  | some k :: _ =>
    if k.line < l.cursor.line || k.index + 1024 < l.cursor.index then
      if k.required then none else some none
    else some (some k)
  | _ => some none

/-! ### Between tokens -/

/-- One step over blanks, comments and line breaks. A tab may not stand where a key may begin,
unless a comment stands before and after it. -/
def gapStep (flow : Bool) (keyAllowed : Bool) (cur : Cursor) : Step Bool :=
  match cur.rest with
  | [] => .stop keyAllowed
  | c :: _ =>
    if c == ' ' || (c == '\t' && (flow || !keyAllowed)) ||
        (c.toNat == 0xfeff && cur.column == 0) then .next keyAllowed (cur.advance 1)
    else if c == '#' then
      let cur := cur.skipWhile (!isBreak ·)
      let ahead := cur.rest.dropWhile fun c => isBlank c || isBreak c
      if ahead.head? == some '#' then
        match cur.scan (fun _ cur => match cur.rest with
            | c :: _ =>
              if isBlank c then .next () (cur.advance 1)
              else if isBreak c then .next () cur.newline.2
              else .stop ()
            | [] => .stop ()) () with
        | some (_, cur) => .next keyAllowed cur
        | none => .fail
      else .next keyAllowed cur
    else if isBreak c then .next (keyAllowed || !flow) cur.newline.2
    else .stop keyAllowed

def skipGap (l : Lexer) : Option Lexer :=
  (l.cursor.scan (gapStep (l.flow > 0)) l.keyAllowed).map fun (keyAllowed, cursor) =>
    { l with keyAllowed, cursor }

/-! ### Tokens -/

def finish (l : Lexer) : Option Lexer :=
  (l.unroll (-1)).dropKey.map fun l =>
    { l with keyAllowed := false }.push .streamEnd l.cursor.line

def documentMark (l : Lexer) (kind : TokenKind) : Option Lexer :=
  (l.unroll (-1)).dropKey.map fun l => { l with keyAllowed := false }.take kind 3

def openFlow (l : Lexer) (kind : TokenKind) : Option Lexer :=
  l.saveKey.map fun l =>
    { l with keys := none :: l.keys, flow := l.flow + 1, keyAllowed := true }.take kind 1

def closeFlow (l : Lexer) (kind : TokenKind) : Option Lexer :=
  l.dropKey.map fun l =>
    let l := if l.flow > 0 then { l with flow := l.flow - 1, keys := l.keys.tail } else l
    { l with keyAllowed := false }.take kind 1

def flowEntry (l : Lexer) : Option Lexer :=
  l.dropKey.map fun l => { l with keyAllowed := true }.take .flowEntry 1

/-- Is a block entry, an explicit key or a value without a key allowed here? -/
def mayOpen (l : Lexer) : Bool :=
  l.flow > 0 || l.keyAllowed

def blockEntry (l : Lexer) : Option Lexer :=
  if !l.mayOpen then none
  else (l.roll l.cursor.column l.count .blockSequenceStart l.cursor.line).dropKey.map fun l =>
    { l with keyAllowed := true }.take .blockEntry 1

def explicitKey (l : Lexer) : Option Lexer :=
  if !l.mayOpen then none
  else (l.roll l.cursor.column l.count .blockMappingStart l.cursor.line).dropKey.map fun l =>
    { l with keyAllowed := l.flow == 0 }.take .key 1

/-- A colon: the value of the key that ends here, or of an explicit or empty key. -/
def value (l : Lexer) : Option Lexer := do
  match ← l.endingKey with
  | some k =>
    let l := (l.insert k.number .key k.line).roll k.column k.number .blockMappingStart k.line
    return { l with keys := none :: l.keys.tail, keyAllowed := false }.take .value 1
  | none =>
    if !l.mayOpen then none
    let l := l.roll l.cursor.column l.count .blockMappingStart l.cursor.line
    return { l with keyAllowed := l.flow == 0 }.take .value 1

def block (l : Lexer) (folded : Bool) : Option Lexer := do
  let l ← l.dropKey
  let (text, cursor) ← readBlock folded l.indent l.cursor
  let style := if folded then Style.folded else .literal
  return { l.push (.scalar style text) l.cursor.line with keyAllowed := true, cursor }

def quoted (l : Lexer) (double : Bool) : Option Lexer := do
  let l ← l.saveKey
  let (text, cursor) ← readQuoted double l.cursor
  let style := if double then Style.double else .single
  return { l.push (.scalar style text) l.cursor.line with keyAllowed := false, cursor }

def plain (l : Lexer) : Option Lexer := do
  let l ← l.saveKey
  let (text, afterBreak, cursor) ← readPlain (l.flow > 0) (l.indent + 1).toNat l.cursor
  return { l.push (.scalar .plain text) l.cursor.line with keyAllowed := afterBreak, cursor }

def isIndicator (c : Char) : Bool :=
  "-?:,[]{}#&*!|>'\"%@\x60".contains c

def token (l : Lexer) (c : Char) (rest : List Char) : Option Lexer :=
  let atStart := l.cursor.column == 0
  let flow := l.flow > 0
  if atStart && c == '%' then none
  else if atStart && startsDocument (c :: rest) then
    l.documentMark (if c == '-' then .documentStart else .documentEnd)
  else match c with
    | '[' => l.openFlow .flowSequenceStart
    | '{' => l.openFlow .flowMappingStart
    | ']' => l.closeFlow .flowSequenceEnd
    | '}' => l.closeFlow .flowMappingEnd
    | ',' => l.flowEntry
    | '\'' => l.quoted false
    | '"' => l.quoted true
    | _ =>
      if c == '-' && startsBlank rest then l.blockEntry
      else if c == '?' && (flow || startsBlank rest) then l.explicitKey
      else if c == ':' && (flow || startsBlank rest) then l.value
      else if !flow && (c == '|' || c == '>') then l.block (c == '>')
      else if !(startsBlank (c :: rest) || isIndicator c) || c == '-' ||
          (!flow && (c == '?' || c == ':')) then l.plain
      else none

/-- Reads tokens up to the end of the text, or up to a fault: the state there, and whether the end
was reached. -/
def run : (fuel : Nat) → Lexer → Lexer × Bool
  | 0, l => (l, false)
  | fuel + 1, l =>
    match l.skipGap with
    | none => (l, false)
    | some l =>
      let l := l.unroll l.cursor.column
      match l.cursor.rest with
      | [] => (match l.finish with
        | some l => (l, true)
        | none => (l, false))
      | c :: rest => match l.token c rest with
        | some l => run fuel l
        | none => (l, false)

end Lexer

def isAllowed (c : Char) : Bool :=
  let n := c.toNat
  n == 9 || n == 10 || n == 13 || (0x20 ≤ n && n ≤ 0x7e) || n == 0x85 ||
    (0xa0 ≤ n && n ≤ 0xfffd) || 0x10000 ≤ n

/-- The tokens of a text. A reader sees two tokens ahead, so if the text has a fault the two tokens
before it cannot be seen either, and the end of the stream is missing. -/
def Token.ofText (s : String) : List Token :=
  let chars := match s.toList with
    | c :: rest => if c.toNat == 0xfeff then rest else c :: rest
    | [] => []
  if chars.all isAllowed then
    let (l, complete) := Lexer.run (chars.length + 1) { cursor := { rest := chars } }
    (if complete then l.tokens else l.tokens.drop 2).reverse
  else []

end Bytecode.Yaml
