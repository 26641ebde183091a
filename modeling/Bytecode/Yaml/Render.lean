import Bytecode.Yaml.Implicit
import Bytecode.Yaml.Scalar

/-!
Writing YAML in block style. Nested collections are indented to the next multiple of four columns,
and lines are never folded.

* `scalarText`: a text as a scalar, in the first of these forms that reads back: plain, in single
  quotes, in double quotes; a text of several lines is a literal block;
* `Tree.document`: a document.
-/
namespace Bytecode.Yaml

/-! ### Scalars -/

/-- May a character be written as it is? Those past the basic plane may not. -/
def isPrinted (c : Char) : Bool :=
  let n := c.toNat
  n == 10 || (0x20 ≤ n && n ≤ 0x7e) || (0xa0 ≤ n && n ≤ 0xfffd && n != 0xfeff)

/-- Is there a colon before a blank or the end, or a hash after a blank? The argument says what
stands before the text: nothing or a blank. -/
def hasIndicator : (afterBlank : Bool) → List Char → Bool
  | _, [] => false
  | afterBlank, c :: rest =>
    (c == ':' && startsBlank rest) || (c == '#' && afterBlank) ||
      hasIndicator (isBlank c || isBreak c) rest

/-- Does the first character of a text, or its first two, mean something else in a plain scalar? -/
def startsIndicator : List Char → Bool
  | '-' :: '-' :: '-' :: _ => true
  | '.' :: '.' :: '.' :: _ => true
  | c :: rest =>
    "#,[]{}&*!|>'\"%@\x60".contains c || ((c == '?' || c == '-') && startsBlank rest)
  | [] => false

def hasBreakBySpace : List Char → Bool
  | a :: b :: rest =>
    (isBreak a && b == ' ') || (a == ' ' && isBreak b) || hasBreakBySpace (b :: rest)
  | _ => false

/-- Is the first or last character one that `p` holds of? -/
def edged (p : Char → Bool) (s : List Char) : Bool :=
  s.head?.any p || s.getLast?.any p

def singleAllowed (s : List Char) : Bool :=
  s.all isPrinted && !hasBreakBySpace s

def plainAllowed (s : List Char) : Bool :=
  singleAllowed s && !s.any isBreak && !edged (· == ' ') s && !startsIndicator s &&
    !hasIndicator true s

def blockAllowed (s : List Char) : Bool :=
  let spaceThenBreak : List Char → Bool := fun s =>
    (s.zip s.tail).any fun (a, b) => a == ' ' && isBreak b
  s.all (fun c => isPrinted c || c == '\t') && !s.getLast?.any (· == ' ') && !spaceThenBreak s

def spaces (n : Nat) : List Char :=
  List.replicate n ' '

/-- A character inside single quotes, where further lines are indented. -/
def singleChar (indent : Nat) (afterBreak : Bool) (c : Char) : List Char :=
  (if afterBreak && !isBreak c && c != ' ' then spaces indent else []) ++
    if c == '\'' then ['\'', '\''] else [c]

def singleBody (indent : Nat) : (afterBreak : Bool) → List Char → List Char
  | _, [] => []
  | afterBreak, c :: rest =>
    singleChar indent afterBreak c ++ singleBody indent (isBreak c) rest

/-- The letter after the backslash for a character with an escape of its own. -/
def escapeLetter? (c : Char) : Option Char :=
  match c.toNat with
  | 0 => some '0'
  | 7 => some 'a'
  | 8 => some 'b'
  | 9 => some 't'
  | 10 => some 'n'
  | 11 => some 'v'
  | 12 => some 'f'
  | 13 => some 'r'
  | 0x1b => some 'e'
  | 0x22 => some '"'
  | 0x5c => some '\\'
  | 0x85 => some 'N'
  | 0x2028 => some 'L'
  | 0x2029 => some 'P'
  | _ => none

def doubleChar (c : Char) : List Char :=
  match escapeLetter? c with
  | some letter => ['\\', letter]
  | none =>
    if isPrinted c then [c]
    else
      let n := c.toNat
      let digits (mark : Char) (width : Nat) : List Char :=
        '\\' :: mark :: ((Text.hexDigits width n).toList.map Char.toUpper)
      if n ≤ 0xff then digits 'x' 2 else if n ≤ 0xffff then digits 'u' 4 else digits 'U' 8

/-- The lines of a literal block, which begin after the header; empty lines are not indented. -/
def blockBody (indent : Nat) : (afterBreak first : Bool) → List Char → List Char
  | _, _, [] => []
  | afterBreak, first, c :: rest =>
    if isBreak c then c :: blockBody indent true false rest
    else (if first then ['\n'] else []) ++ (if afterBreak then spaces indent else []) ++
      c :: blockBody indent false false rest

/-- The header of a literal block: a hint if it starts with a space, and what becomes of the breaks
at its end. -/
def blockHint (s : List Char) : List Char :=
  (if s.head?.any (fun c => c == ' ' || isBreak c) then ['4'] else []) ++
    match s.reverse with
    | last :: before =>
      if !isBreak last then ['-']
      else match before with
        | [] => ['+']
        | c :: _ => if isBreak c then ['+'] else []
    | [] => ['-']

/-- A text as a scalar, whose further lines are indented. -/
def scalarText (indent : Nat) (s : String) : String :=
  let cs := s.toList
  let double := '"' :: (cs.flatMap doubleChar ++ ['"'])
  String.ofList <|
    if cs.contains '\n' then
      if blockAllowed cs then
        let body := blockBody indent true true cs
        '|' :: (blockHint cs ++ if body.getLast? == some '\n' then body.dropLast else body)
      else double
    else if !readsAsText s then double
    else if plainAllowed cs then cs
    else if singleAllowed cs then '\'' :: (singleBody indent false cs ++ ['\''])
    else double

/-! ### Documents -/

inductive Tree where
  | text (s : String)
  | int (n : Int)
  | bool (b : Bool)
  | list (items : List Tree)
  | record (fields : List (String × Tree))

def nested (indent : Nat) : Nat :=
  4 * ((indent + 4) / 4)

def lineAt (indent : Nat) : String :=
  String.ofList ('\n' :: spaces indent)

mutual

def renderFields (indent : Nat) : List (String × Tree) → String
  | [] => ""
  | field :: rest =>
    renderField indent field ++
      if rest.isEmpty then "" else lineAt indent ++ renderFields indent rest

/-- A field of a mapping: its name, and its value on the same line or below. -/
def renderField (indent : Nat) : String × Tree → String
  | (name, value) => name ++ ":" ++ renderValue indent value

def renderValue (indent : Nat) : Tree → String
  | .text s => " " ++ scalarText (nested indent) s
  | .int n => " " ++ toString n
  | .bool b => " " ++ toString b
  | .list items => if items.isEmpty then " []" else renderItems (nested indent) items
  | .record fields =>
    if fields.isEmpty then " \x7b\x7d"
    else lineAt (nested indent) ++ renderFields (nested indent) fields

def renderItems (indent : Nat) : List Tree → String
  | [] => ""
  | item :: rest => lineAt indent ++ "- " ++ renderItem (indent + 2) item ++ renderItems indent rest

def renderItem (indent : Nat) : Tree → String
  | .text s => scalarText indent s
  | .int n => toString n
  | .bool b => toString b
  | .list items => if items.isEmpty then "[]" else renderItems indent items
  | .record fields => if fields.isEmpty then "\x7b\x7d" else renderFields indent fields

end

def Tree.document (fields : List (String × Tree)) : String :=
  renderFields 0 fields ++ "\n"

end Bytecode.Yaml
