import Bytecode.Text.Numeral

/-!
The grammar of TOML: a document is a list of statements, each of which opens a table or gives a
key a value.

* `Statement.parse?`: the statements of a text.

Only the values that a configuration uses are kept: of floats and times it matters that they are
well-formed.
-/
namespace Bytecode.Toml

/-- A key: one part, or several separated by points. -/
abbrev Key := List String

inductive Literal where
  | string (s : String)
  | integer (n : Int)
  | bool (b : Bool)
  | float
  | time
  | array (items : List Literal)
  | inlineTable (entries : List (Key × Literal))

inductive Statement where
  | table (key : Key)
  | tableArray (key : Key)
  | entry (key : Key) (value : Literal)

/-- What reads a value from the head of a text gives it with the rest. -/
abbrev Reader (α : Type) := List Char → Option (α × List Char)

/-! ### Characters -/

def isSpace (c : Char) : Bool :=
  c == ' ' || c == '\t'

def isNewline (c : Char) : Bool :=
  c == '\n' || c == '\r'

def isControl (c : Char) : Bool :=
  (c.toNat < 0x20 && c != '\t' && !isNewline c) || c.toNat == 0x7f

def isBare (c : Char) : Bool :=
  c.isAlphanum || c == '_' || c == '-'

def skipSpace (s : List Char) : List Char :=
  s.dropWhile isSpace

def skipComment : List Char → List Char
  | '#' :: rest => rest.dropWhile (!isNewline ·)
  | s => s

/-- A text without the blanks, line ends and comments at its head. -/
def skipLines : (fuel : Nat) → List Char → List Char
  | 0, s => s
  | fuel + 1, s =>
    match s.dropWhile fun c => isSpace c || isNewline c with
    | '#' :: rest => skipLines fuel (rest.dropWhile (!isNewline ·))
    | s => s

/-- A text from its next token on, over line ends and comments. -/
def skipGap (s : List Char) : List Char :=
  skipLines (s.length + 1) s

/-! ### Strings -/

def readEscape : Reader Char
  | 'b' :: s => some (Char.ofNat 8, s)
  | 't' :: s => some ('\t', s)
  | 'n' :: s => some ('\n', s)
  | 'f' :: s => some (Char.ofNat 12, s)
  | 'r' :: s => some ('\r', s)
  | 'e' :: s => some (Char.ofNat 27, s)
  | '"' :: s => some ('"', s)
  | '\\' :: s => some ('\\', s)
  | 'x' :: s => coded 2 s
  | 'u' :: s => coded 4 s
  | 'U' :: s => coded 8 s
  | _ => none
where
  coded (width : Nat) : Reader Char := fun s => do
    let (n, s) ← Text.readDigits? 16 width 0 s
    return (← Text.charOfCode? n, s)

/-- Reads a string of one line up to its closing quote; one in single quotes has no escapes. -/
def readLine (quote : Char) : (fuel : Nat) → List Char → Reader String
  | 0, _, _ => none
  | _ + 1, _, [] => none
  | fuel + 1, text, c :: s =>
    if c == quote then some (String.ofList text.reverse, s)
    else if isNewline c then none
    else if c == '\\' && quote == '"' then do
      let (e, s) ← readEscape s
      readLine quote fuel (e :: text) s
    else readLine quote fuel (c :: text) s

/-- Reads a string of several lines up to its three closing quotes, before which two more may
stand. A backslash at the end of a line takes away the blanks and line ends after it. -/
def readLines (quote : Char) : (fuel : Nat) → List Char → Reader String
  | 0, _, _ => none
  | _ + 1, _, [] => none
  | fuel + 1, text, c :: s =>
    if c == quote then
      let quotes := ((c :: s).takeWhile (· == quote)).length
      let extra := min (quotes - 3) 2
      if quotes ≥ 3 then
        some (String.ofList (List.replicate extra quote ++ text).reverse, s.drop (extra + 2))
      else readLines quote fuel (c :: text) s
    else if c == '\\' && quote == '"' then
      if (s.dropWhile isSpace).head?.any isNewline then
        readLines quote fuel text (s.dropWhile fun c => isSpace c || isNewline c)
      else do
        let (e, s) ← readEscape s
        readLines quote fuel (e :: text) s
    else readLines quote fuel (c :: text) s

def skipNewline : List Char → List Char
  | '\r' :: '\n' :: s => s
  | '\n' :: s => s
  | s => s

def readString (quote : Char) (s : List Char) : Option (String × List Char) :=
  if s.take 3 == [quote, quote, quote] then
    readLines quote (s.length + 1) [] (skipNewline (s.drop 3))
  else readLine quote (s.length + 1) [] (s.drop 1)

/-! ### Keys -/

def readKeyPart : Reader String
  | '"' :: s => if s.take 2 == ['"', '"'] then none else readString '"' ('"' :: s)
  | '\'' :: s => if s.take 2 == ['\'', '\''] then none else readString '\'' ('\'' :: s)
  | s =>
    let part := s.takeWhile isBare
    if part.isEmpty then none else some (String.ofList part, s.dropWhile isBare)

def readKey : (fuel : Nat) → Reader Key
  | 0, _ => none
  | fuel + 1, s => do
    let (part, s) ← readKeyPart (skipSpace s)
    match skipSpace s with
    | '.' :: s =>
      let (rest, s) ← readKey fuel s
      return (part :: rest, s)
    | s => return ([part], s)

/-! ### Numbers and times -/

/-- Do the underscores of a numeral stand between digits? -/
def underscoresInside (digit : Char → Bool) : List Char → Bool
  | a :: '_' :: b :: rest => digit a && digit b && underscoresInside digit (b :: rest)
  | '_' :: _ => false
  | [_, '_'] => false
  | _ :: rest => underscoresInside digit rest
  | [] => true

/-- Are these digits of a decimal number, without a zero in front of others? -/
def isWhole (s : List Char) : Bool :=
  !s.isEmpty && s.all (fun c => c.isDigit || c == '_') && underscoresInside Char.isDigit s &&
    match s with
    | '0' :: _ :: _ => false
    | _ => true

def isDigits (s : List Char) : Bool :=
  !s.isEmpty && s.all (fun c => c.isDigit || c == '_') && underscoresInside Char.isDigit s

/-- The integer that a token writes: decimal with a sign, or in another base without one. -/
def integer? (s : List Char) : Option Int :=
  let based (base : Nat) (digits : List Char) : Option Int :=
    let digit (c : Char) : Bool := (Text.hexValue? c).any (· < base)
    if !digits.isEmpty && digits.all (fun c => digit c || c == '_') &&
        underscoresInside digit digits then
      (Text.digitsValue? base digits).bind fun n => if n < Nat.pow 2 63 then some (n : Int) else none
    else none
  match s with
  | '0' :: 'x' :: digits => based 16 digits
  | '0' :: 'o' :: digits => based 8 digits
  | '0' :: 'b' :: digits => based 2 digits
  | s =>
    let (negative, digits) := Text.splitSign s
    if isWhole digits then (Text.digitsValue? 10 digits).bind fun n =>
      if negative then if n ≤ Nat.pow 2 63 then some (-(n : Int)) else none
      else if n < Nat.pow 2 63 then some (n : Int) else none
    else none

/-- Is a token a float: a word, or a decimal number with a fraction or an exponent? -/
def isFloat (s : List Char) : Bool :=
  let s := (Text.splitSign s).2
  let mantissa := s.takeWhile fun c => c != 'e' && c != 'E'
  let exponent := s.drop mantissa.length
  let whole := mantissa.takeWhile (· != '.')
  let fraction := mantissa.drop whole.length
  s == "inf".toList || s == "nan".toList ||
    (isWhole whole && (fraction.isEmpty || isDigits (fraction.drop 1)) &&
      (exponent.isEmpty || isDigits (Text.splitSign (exponent.drop 1)).2) &&
      !(fraction.isEmpty && exponent.isEmpty))

def twoDigits? (low high : Nat) : List Char → Option (Nat × List Char)
  | a :: b :: s =>
    if a.isDigit && b.isDigit then
      let n := (a.toNat - 48) * 10 + (b.toNat - 48)
      if low ≤ n && n ≤ high then some (n, s) else none
    else none
  | _ => none

def after? (c : Char) : List Char → Option (List Char)
  | d :: s => if c == d then some s else none
  | [] => none

def date? (s : List Char) : Option (List Char) := do
  let year := s.take 4
  if year.length ≠ 4 ∨ !year.all Char.isDigit then none
  let y ← Text.digitsValue? 10 year
  let (month, s) ← twoDigits? 1 12 (← after? '-' (s.drop 4))
  let leap := y % 4 = 0 ∧ (y % 100 ≠ 0 ∨ y % 400 = 0)
  let days := if month = 2 then if leap then 29 else 28
    else if [4, 6, 9, 11].contains month then 30 else 31
  let (_, s) ← twoDigits? 1 days (← after? '-' s)
  return s

/-- What follows a time of day at the head of a text; the seconds may be missing. -/
def clock? (s : List Char) : Option (List Char) := do
  let (_, s) ← twoDigits? 0 23 s
  let (_, s) ← twoDigits? 0 59 (← after? ':' s)
  match s with
  | ':' :: s =>
    let (_, s) ← twoDigits? 0 59 s
    match s with
    | '.' :: d :: s => if d.isDigit then some (s.dropWhile Char.isDigit) else none
    | s => some s
  | s => some s

def isOffset : List Char → Bool
  | [] => true
  | ['Z'] | ['z'] => true
  | sign :: s => (sign == '+' || sign == '-') && (do
      let (_, s) ← twoDigits? 0 24 s
      let (_, s) ← twoDigits? 0 60 (← after? ':' s)
      return s) == some []

def isTime (s : List Char) : Bool :=
  clock? s == some [] ||
    match date? s with
    | some [] => true
    | some (c :: s) => (c == 'T' || c == 't' || c == ' ') && (clock? s).any isOffset
    | none => false

/-- The characters of a number or time at the head of a text. After a date, a blank may stand before
the time of day. -/
def readToken (s : List Char) : List Char × List Char :=
  let part (c : Char) : Bool :=
    c.isAlphanum || c == '_' || c == '-' || c == '+' || c == '.' || c == ':'
  let word := s.takeWhile part
  let rest := s.dropWhile part
  match rest with
  | ' ' :: c :: _ =>
    if date? word == some [] && c.isDigit then
      (word ++ ' ' :: (rest.drop 1).takeWhile part, (rest.drop 1).dropWhile part)
    else (word, rest)
  | _ => (word, rest)

def readAtom (s : List Char) : Option (Literal × List Char) :=
  let (token, rest) := readToken s
  if token == "true".toList then some (.bool true, rest)
  else if token == "false".toList then some (.bool false, rest)
  else match integer? token with
    | some n => some (.integer n, rest)
    | none =>
      if isFloat token then some (.float, rest)
      else if isTime token then some (.time, rest)
      else none

/-! ### Values and statements -/

mutual

def readValue (fuel : Nat) (s : List Char) : Option (Literal × List Char) :=
  match fuel, s with
  | _ + 1, '"' :: _ => (readString '"' s).map fun (t, s) => (.string t, s)
  | _ + 1, '\'' :: _ => (readString '\'' s).map fun (t, s) => (.string t, s)
  | fuel + 1, '[' :: s => (readItems fuel [] (skipGap s)).map fun (l, s) => (.array l, s)
  | fuel + 1, '{' :: s => (readEntries fuel [] (skipGap s)).map fun (l, s) => (.inlineTable l, s)
  | _ + 1, s => readAtom s
  | 0, _ => none

/-- Reads the items of an array up to its end; a comma may follow the last. -/
def readItems (fuel : Nat) (items : List Literal) (s : List Char) :
    Option (List Literal × List Char) :=
  match fuel, s with
  | _ + 1, ']' :: s => some (items.reverse, s)
  | fuel + 1, s => do
    let (item, s) ← readValue fuel s
    match skipGap s with
    | ',' :: s => readItems fuel (item :: items) (skipGap s)
    | ']' :: s => some ((item :: items).reverse, s)
    | _ => none
  | 0, _ => none

/-- Reads the entries of an inline table up to its end; a comma may follow the last. -/
def readEntries (fuel : Nat) (entries : List (Key × Literal)) (s : List Char) :
    Option (List (Key × Literal) × List Char) :=
  match fuel, s with
  | _ + 1, '}' :: s => some (entries.reverse, s)
  | fuel + 1, s => do
    let (key, s) ← readKey (s.length + 1) s
    let s ← after? '=' s
    let (value, s) ← readValue fuel (skipSpace s)
    match skipGap s with
    | ',' :: s => readEntries fuel ((key, value) :: entries) (skipGap s)
    | '}' :: s => some (((key, value) :: entries).reverse, s)
    | _ => none
  | 0, _ => none

end

def readStatement (s : List Char) : Option (Statement × List Char) := do
  let fuel := s.length + 1
  match s with
  | '[' :: '[' :: s =>
    let (key, s) ← readKey fuel s
    let s ← after? ']' (← after? ']' s)
    return (.tableArray key, s)
  | '[' :: s =>
    let (key, s) ← readKey fuel s
    let s ← after? ']' s
    return (.table key, s)
  | s =>
    let (key, s) ← readKey fuel s
    let s ← after? '=' s
    let (value, s) ← readValue fuel (skipSpace s)
    return (.entry key value, s)

/-- Reads statements up to the end of a text. Each ends its line, a comment apart. -/
def readStatements : (fuel : Nat) → List Statement → List Char → Option (List Statement)
  | 0, _, _ => none
  | fuel + 1, statements, s =>
    match skipGap s with
    | [] => some statements.reverse
    | s => do
      let (statement, s) ← readStatement s
      match skipComment (skipSpace s) with
      | [] => some (statement :: statements).reverse
      | c :: s => if isNewline c then readStatements fuel (statement :: statements) s else none

def hasBareReturn : List Char → Bool
  | '\r' :: '\n' :: s => hasBareReturn s
  | '\r' :: _ => true
  | _ :: s => hasBareReturn s
  | [] => false

/-- The statements of a text, which has no control characters. -/
def Statement.parse? (text : String) : Option (List Statement) :=
  let s := match text.toList with
    | c :: rest => if c.toNat == 0xfeff then rest else c :: rest
    | [] => []
  if s.any isControl || hasBareReturn s then none else readStatements (s.length + 1) [] s

end Bytecode.Toml
