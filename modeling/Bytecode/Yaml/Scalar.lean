import Bytecode.Text.Quoted
import Bytecode.Yaml.Cursor

/-!
The scalars of YAML. A scalar may run over several lines; in all but literal blocks a single line
break becomes a space, and of several breaks the first is dropped.

* `readPlain`: a scalar without quotes;
* `readQuoted`: a scalar in single or double quotes;
* `readBlock`: a literal or folded block.
-/
namespace Bytecode.Yaml

inductive Style where
  | plain
  | single
  | double
  | literal
  | folded
  deriving DecidableEq, Repr

/-! ### Text over several lines -/

/-- A scalar under way. The lists have the last character first. -/
structure Folding where
  /-- The text up to the last character that is not blank. -/
  text : List Char := []
  /-- The blanks after it. -/
  gap : List Char := []
  /-- The line breaks after it: the first, unless it is escaped, and the later ones. -/
  breaks : Option (Option Char × List Char) := none

namespace Folding

/-- One more blank. Blanks at the start of a line do not count. -/
def blank (f : Folding) (c : Char) : Folding :=
  if f.breaks.isSome then f else { f with gap := c :: f.gap }

/-- One more line break. Blanks at the end of a line do not count. -/
def newline (f : Folding) (b : Char) : Folding :=
  match f.breaks with
  | none => { f with gap := [], breaks := some (some b, []) }
  | some (first, later) => { f with breaks := some (first, b :: later) }

def inGap (f : Folding) : Bool :=
  !f.gap.isEmpty || f.breaks.isSome

def close (f : Folding) : Folding :=
  let text := match f.breaks with
    | none => f.gap ++ f.text
    | some (some '\n', []) => ' ' :: f.text
    | some (some '\n', later) => later ++ f.text
    | some (first, later) => later ++ first.toList ++ f.text
  { text }

def push (f : Folding) (c : Char) : Folding :=
  { f.close with text := c :: f.close.text }

def toString (f : Folding) : String :=
  String.ofList f.text.reverse

end Folding

/-! ### Plain scalars -/

def endsPlain (flow : Bool) : List Char → Bool
  | [] => true
  | ':' :: rest => startsBlank rest
  | '?' :: rest => flow && (match rest with
    | [] => true
    | c :: _ => c == ' ' || isBreak c)
  | c :: _ => flow && (c == ',' || c == '[' || c == ']' || c == '{' || c == '}')

/-- One character of a plain scalar whose further lines are indented by `indent` at least. -/
def plainStep (flow : Bool) (indent : Nat) (f : Folding) (cur : Cursor) : Step Folding :=
  match cur.rest with
  | [] => .stop f
  | c :: _ =>
    if isBlank c then
      if f.breaks.isSome && cur.column < indent && c == '\t' then .fail
      else .next (f.blank c) (cur.advance 1)
    else if isBreak c then
      let (b, cur) := cur.newline
      .next (f.newline b) cur
    else if f.inGap && (!flow && cur.column < indent || c == '#' ||
        cur.column == 0 && startsDocument cur.rest) then .stop f
    else if endsPlain flow cur.rest then .stop f
    else .next (f.push c) (cur.advance 1)

/-- Reads a plain scalar: its text, whether it ends after a line break, and the place after it. -/
def readPlain (flow : Bool) (indent : Nat) (cur : Cursor) : Option (String × Bool × Cursor) :=
  (cur.scan (plainStep flow indent) {}).map fun (f, cur) => (f.toString, f.breaks.isSome, cur)

/-! ### Quoted scalars -/

def escapeOf? : Char → Option Char
  | '0' => some (Char.ofNat 0)
  | 'a' => some (Char.ofNat 7)
  | 'b' => some (Char.ofNat 8)
  | 't' => some '\t'
  | '\t' => some '\t'
  | 'n' => some '\n'
  | 'v' => some (Char.ofNat 11)
  | 'f' => some (Char.ofNat 12)
  | 'r' => some '\r'
  | 'e' => some (Char.ofNat 27)
  | ' ' => some ' '
  | '"' => some '"'
  | '\'' => some '\''
  | '/' => some '/'
  | '\\' => some '\\'
  | 'N' => some (Char.ofNat 0x85)
  | '_' => some (Char.ofNat 0xa0)
  | 'L' => some (Char.ofNat 0x2028)
  | 'P' => some (Char.ofNat 0x2029)
  | _ => none

def escapeWidth? : Char → Option Nat
  | 'x' => some 2
  | 'u' => some 4
  | 'U' => some 8
  | _ => none

/-- The character of an escape, and how many characters follow the backslash. -/
def readEscape? : List Char → Option (Char × Nat)
  | [] => none
  | c :: rest =>
    match escapeWidth? c with
    | some width => do
      let (n, _) ← Text.readDigits? 16 width 0 rest
      return (← Text.charOfCode? n, width + 1)
    | none => (escapeOf? c).map (·, 1)

/-- One character of a quoted scalar; it stops at the closing quote. -/
def quotedStep (double : Bool) (f : Folding) (cur : Cursor) : Step Folding :=
  match cur.rest with
  | [] => .fail
  | c :: rest =>
    if isBlank c then .next (f.blank c) (cur.advance 1)
    else if isBreak c then
      let (b, cur) := cur.newline
      .next (f.newline b) cur
    else if cur.column == 0 && startsDocument cur.rest then .fail
    else if double then
      if c == '"' then .stop f.close
      else if c == '\\' then
        if rest.head?.any isBreak then
          .next { f.close with breaks := some (none, []) } (cur.advance 1).newline.2
        else match readEscape? rest with
          | some (e, n) => .next (f.push e) (cur.advance (n + 1))
          | none => .fail
      else .next (f.push c) (cur.advance 1)
    else if c == '\'' then
      if rest.head? == some '\'' then .next (f.push '\'') (cur.advance 2) else .stop f.close
    else .next (f.push c) (cur.advance 1)

def readQuoted (double : Bool) (cur : Cursor) : Option (String × Cursor) :=
  ((cur.advance 1).scan (quotedStep double) {}).map fun (f, cur) => (f.toString, cur.advance 1)

/-! ### Blocks -/

/-- What becomes of the line breaks at the end of a block. -/
inductive Chomping where
  | clip
  | strip
  | keep
  deriving DecidableEq, Repr

/-- The header of a block after its first character: chomping, and the given indentation or 0. -/
def blockHeader? (s : List Char) : Option (Chomping × Nat × Nat) :=
  let chomping? (c : Char) : Option Chomping :=
    if c == '+' then some .keep else if c == '-' then some .strip else none
  let digit? (s : List Char) : Option (Option Nat) := match s with
    | c :: _ => if c == '0' then none
      else if c.isDigit then some (some (c.toNat - '0'.toNat)) else some none
    | [] => some none
  match s with
  | [] => some (.clip, 0, 0)
  | c :: rest =>
    match chomping? c with
    | some chomping => (digit? rest).map fun
      | some n => (chomping, n, 2)
      | none => (chomping, 0, 1)
    | none => (digit? s).map fun
      | none => (.clip, 0, 0)
      | some n => match rest.head?.bind chomping? with
        | some chomping => (chomping, n, 2)
        | none => (.clip, n, 1)

/-- The empty lines before a line of a block: the greatest indentation seen, and the breaks. -/
structure EmptyLines where
  widest : Nat := 0
  breaks : List Char := []

/-- One character of the empty lines and indentation in a block. An `indent` of 0 is not yet
known. -/
def emptyStep (indent : Nat) (e : EmptyLines) (cur : Cursor) : Step EmptyLines :=
  let eating := indent == 0 || cur.column < indent
  let e := { e with widest := max e.widest cur.column }
  match cur.rest with
  | [] => .stop e
  | c :: _ =>
    if eating && c == ' ' then .next e (cur.advance 1)
    else if eating && c == '\t' then .fail
    else if isBreak c then
      let (b, cur) := cur.newline
      .next { e with breaks := b :: e.breaks } cur
    else .stop e

/-- The lines of a block under way. The lists have the last character first. -/
structure BlockLines where
  text : List Char := []
  leading : List Char := []
  trailing : List Char
  indented : Bool := false

/-- One line of a block, with the empty lines after it. A folded block joins two lines with a space
unless one of them starts with a blank. -/
def blockStep (folded : Bool) (indent : Nat) (b : BlockLines) (cur : Cursor) : Step BlockLines :=
  if cur.column != indent || cur.rest.isEmpty then .stop b
  else
    let indented := cur.rest.head?.any isBlank
    let text :=
      if folded && !b.indented && !indented && b.leading == ['\n'] then
        if b.trailing.isEmpty then ' ' :: b.text else b.text
      else b.leading ++ b.text
    let line := cur.rest.takeWhile (!isBreak ·)
    let text := line.reverse ++ (b.trailing ++ text)
    let cur := cur.advance line.length
    let (leading, cur) := if cur.rest.isEmpty then ([], cur)
      else let (c, cur) := cur.newline
        ([c], cur)
    match cur.scan (emptyStep indent) {} with
    | none => .fail
    | some (e, cur) => .next { text, leading, trailing := e.breaks, indented } cur

/-- Reads a block, from its first character on, inside a collection indented by `parent`. -/
def readBlock (folded : Bool) (parent : Int) (cur : Cursor) : Option (String × Cursor) := do
  let cur := cur.advance 1
  let (chomping, increment, length) ← blockHeader? cur.rest
  let cur := (cur.advance length).skipWhile isBlank
  let cur := if cur.rest.head? == some '#' then cur.skipWhile (!isBreak ·) else cur
  let cur ← match cur.rest with
    | [] => some cur
    | c :: _ => if isBreak c then some cur.newline.2 else none
  let known := if increment = 0 then 0 else (max parent 0).toNat + increment
  let (e, cur) ← cur.scan (emptyStep known) {}
  let indent := if known = 0 then max (max e.widest (parent + 1).toNat) 1 else known
  let (b, cur) ← cur.scan (blockStep folded indent) { trailing := e.breaks }
  let text := match chomping with
    | .strip => b.text
    | .clip => b.leading ++ b.text
    | .keep => b.trailing ++ (b.leading ++ b.text)
  return (String.ofList text.reverse, cur)

end Bytecode.Yaml
