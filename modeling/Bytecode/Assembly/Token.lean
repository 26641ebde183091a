import Bytecode.Text.Blank

/-!
Tokens of assembly lines: words between blanks, and strings in double quotes, which keep their
quotes. A semicolon where a token would start begins a comment.
-/
namespace Bytecode.Assembly

/-- Where in a line a scan stands. Characters of an open token stand last first. -/
inductive ScanState where
  | between
  | word (seen : List Char)
  | string (seen : List Char)
  | escape (seen : List Char)
  | comment

def isGap (c : Char) : Bool :=
  c == ' ' || c == '\t' || c == '\r'

/-- One character further; the tokens stand last first. -/
def scanStep : ScanState × List (List Char) → Char → ScanState × List (List Char)
  | (.between, tokens), c =>
    if isGap c then (.between, tokens)
    else if c == ';' then (.comment, tokens)
    else if c == '"' then (.string ['"'], tokens)
    else (.word [c], tokens)
  | (.word seen, tokens), c =>
    if isGap c then (.between, seen.reverse :: tokens) else (.word (c :: seen), tokens)
  | (.string seen, tokens), c =>
    if c == '"' then (.between, (c :: seen).reverse :: tokens)
    else if c == '\\' then (.escape (c :: seen), tokens)
    else (.string (c :: seen), tokens)
  | (.escape seen, tokens), c => (.string (c :: seen), tokens)
  | (.comment, tokens), _ => (.comment, tokens)

/-- The tokens of a line, or `none` if a string is not closed. -/
def tokens? (line : List Char) : Option (List (List Char)) :=
  match line.foldl scanStep (.between, []) with
  | (.string _, _) | (.escape _, _) => none
  | (.word seen, tokens) => some (seen.reverse :: tokens).reverse
  | (_, tokens) => some tokens.reverse

/-- The label that a token defines: what stands before its only colon, which is its end. -/
def label? (token : List Char) : Option (List Char) :=
  match token.reverse with
  | ':' :: rest =>
    if rest.isEmpty || rest.contains ':' || token.head? == some '"' then none
    else some rest.reverse
  | _ => none

end Bytecode.Assembly
