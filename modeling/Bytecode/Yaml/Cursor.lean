/-!
A place in a YAML text: what follows it, and its line and column, both counted from zero.

`Cursor.scan` repeats a step that takes characters off the text.
-/
namespace Bytecode.Yaml

def isBlank (c : Char) : Bool :=
  c == ' ' || c == '\t'

def isBreak (c : Char) : Bool :=
  c == '\n' || c == '\r' || c.toNat == 0x85 || c.toNat == 0x2028 || c.toNat == 0x2029

/-- Does a text start with a space, a tab or the end of a line, or is it empty? -/
def startsBlank : List Char → Bool
  | [] => true
  | c :: _ => isBlank c || isBreak c

/-- Does a text start with the mark of a document's start or end? -/
def startsDocument : List Char → Bool
  | '-' :: '-' :: '-' :: rest => startsBlank rest
  | '.' :: '.' :: '.' :: rest => startsBlank rest
  | _ => false

structure Cursor where
  rest : List Char
  line : Nat := 0
  column : Nat := 0
  index : Nat := 0

namespace Cursor

def advance (c : Cursor) (n : Nat) : Cursor :=
  { c with rest := c.rest.drop n, column := c.column + n, index := c.index + n }

/-- The place after the end of a line, and the line break as a character. -/
def newline (c : Cursor) : Char × Cursor :=
  let next (n : Nat) : Cursor := ⟨c.rest.drop n, c.line + 1, 0, c.index + n⟩
  match c.rest with
  | '\r' :: '\n' :: _ => ('\n', next 2)
  | b :: _ => (if b.toNat == 0x2028 || b.toNat == 0x2029 then b else '\n', next 1)
  | [] => ('\n', c)

/-- The place of the next character that does not satisfy `p`, on the same line. -/
def skipWhile (c : Cursor) (p : Char → Bool) : Cursor :=
  c.advance (c.rest.takeWhile p).length

end Cursor

/-- What a step of a scan does: go on at a place, stop here, or fail. -/
inductive Step (σ : Type) where
  | next (state : σ) (cursor : Cursor)
  | stop (state : σ)
  | fail

/-- Repeats a step until it stops. A step that goes on must take a character. -/
def Cursor.scanFrom {σ : Type} (step : σ → Cursor → Step σ) :
    (fuel : Nat) → σ → Cursor → Option (σ × Cursor)
  | 0, _, _ => none
  | fuel + 1, s, c =>
    match step s c with
    | .next s c => scanFrom step fuel s c
    | .stop s => some (s, c)
    | .fail => none

/-- Repeats a step until it stops; the state and the place at its end. -/
def Cursor.scan {σ : Type} (step : σ → Cursor → Step σ) (s : σ) (c : Cursor) :
    Option (σ × Cursor) :=
  scanFrom step (c.rest.length + 1) s c

end Bytecode.Yaml
