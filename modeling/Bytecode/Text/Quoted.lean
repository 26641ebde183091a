import Bytecode.Text.Printable

/-!
Quoted text. A quoted text stands between quotes, with the quote and the backslash escaped, the
usual control characters by their letters, other control characters as two hexadecimal digits
and everything else that does not print as four or eight.

* `quote` writes a string between double quotes, `quoteChar` a character between single ones;
* `unquote?` reads the inside of a double-quoted literal into bytes, since an escape such as
  `\xff` stands for a byte that need not be part of well-formed text.
-/
namespace Bytecode.Text

/-! ### Writing -/

/-- The `width` low hexadecimal digits of `n`, in lower case. -/
def hexDigits (width n : Nat) : String :=
  let digits := Nat.toDigits 16 n
  String.ofList (List.replicate (width - digits.length) '0' ++ digits)

def hexByte (b : UInt8) : String :=
  hexDigits 2 b.toNat

/-- The letter that follows the backslash for a control character with an escape of its own. -/
def controlLetter? (c : Char) : Option Char :=
  match c.toNat with
  | 7 => some 'a'
  | 8 => some 'b'
  | 9 => some 't'
  | 10 => some 'n'
  | 11 => some 'v'
  | 12 => some 'f'
  | 13 => some 'r'
  | _ => none

def escapeChar (mark c : Char) : String :=
  if c == mark || c == '\\' then String.ofList ['\\', c]
  else if isPrintable c then String.singleton c
  else match controlLetter? c with
    | some letter => String.ofList ['\\', letter]
    | none =>
      if c.toNat < 0x20 || c.toNat == 0x7f then "\\x" ++ hexDigits 2 c.toNat
      else if c.toNat < 0x10000 then "\\u" ++ hexDigits 4 c.toNat
      else "\\U" ++ hexDigits 8 c.toNat

def quote (s : String) : String :=
  "\"" ++ String.join (s.toList.map (escapeChar '"')) ++ "\""

def quoteChar (c : Char) : String :=
  "'" ++ escapeChar '\'' c ++ "'"

/-! ### Reading -/

def utf8Bytes (c : Char) : List UInt8 :=
  (String.singleton c).toUTF8.toList

def hexValue? (c : Char) : Option Nat :=
  if '0' ≤ c ∧ c ≤ '9' then some (c.toNat - '0'.toNat)
  else if 'a' ≤ c ∧ c ≤ 'f' then some (c.toNat - 'a'.toNat + 10)
  else if 'A' ≤ c ∧ c ≤ 'F' then some (c.toNat - 'A'.toNat + 10)
  else none

/-- The number written by `count` digits in the given base at the head of a text, and the rest. -/
def readDigits? (base : Nat) : (count : Nat) → (value : Nat) → List Char → Option (Nat × List Char)
  | 0, value, s => some (value, s)
  | _ + 1, _, [] => none
  | count + 1, value, c :: s =>
    match hexValue? c with
    | some d => if d < base then readDigits? base count (value * base + d) s else none
    | none => none

theorem readDigits?_length {base count value : Nat} {s rest : List Char} {n : Nat}
    (h : readDigits? base count value s = some (n, rest)) : rest.length ≤ s.length := by
  induction count generalizing value s with
  | zero => simp [readDigits?] at h; simp [h.2]
  | succ count ih =>
    cases s with
    | nil => simp [readDigits?] at h
    | cons c s =>
      simp only [readDigits?] at h
      split at h
      · split at h
        · exact Nat.le_succ_of_le (ih h)
        · cases h
      · cases h

def charOfCode? (n : Nat) : Option Char :=
  if h : n.isValidChar then some (Char.ofNatAux n h) else none

/-- The bytes a backslash escape stands for, and the text after it. The argument starts after the
backslash. Octal escapes have three digits, and only the double quote may be escaped. -/
def readEscape? (s : List Char) : Option (List UInt8 × List Char) :=
  match s with
  | 'a' :: rest => some ([7], rest)
  | 'b' :: rest => some ([8], rest)
  | 'f' :: rest => some ([12], rest)
  | 'n' :: rest => some ([10], rest)
  | 'r' :: rest => some ([13], rest)
  | 't' :: rest => some ([9], rest)
  | 'v' :: rest => some ([11], rest)
  | '\\' :: rest => some (utf8Bytes '\\', rest)
  | '"' :: rest => some (utf8Bytes '"', rest)
  | 'x' :: rest => (readDigits? 16 2 0 rest).map fun (n, rest) => ([n.toUInt8], rest)
  | 'u' :: rest => do
    let (n, rest) ← readDigits? 16 4 0 rest
    return (utf8Bytes (← charOfCode? n), rest)
  | 'U' :: rest => do
    let (n, rest) ← readDigits? 16 8 0 rest
    return (utf8Bytes (← charOfCode? n), rest)
  | s => do
    let (n, rest) ← readDigits? 8 3 0 s
    if n ≤ 255 then some ([n.toUInt8], rest) else none

theorem readEscape?_length {s rest : List Char} {bytes : List UInt8}
    (h : readEscape? s = some (bytes, rest)) : rest.length ≤ s.length := by
  unfold readEscape? at h
  split at h
  all_goals first
    | (simp at h; simp [← h.2]; done)
    | skip
  · simp only [Option.map_eq_some_iff, Prod.exists, Prod.mk.injEq] at h
    obtain ⟨n, r, hr, _, rfl⟩ := h
    exact Nat.le_succ_of_le (readDigits?_length hr)
  · simp only [Option.bind_eq_bind, Option.bind_eq_some_iff, Prod.exists, pure,
      Option.some.injEq, Prod.mk.injEq] at h
    obtain ⟨n, r, hr, _, _, _, rfl⟩ := h
    exact Nat.le_succ_of_le (readDigits?_length hr)
  · simp only [Option.bind_eq_bind, Option.bind_eq_some_iff, Prod.exists, pure,
      Option.some.injEq, Prod.mk.injEq] at h
    obtain ⟨n, r, hr, _, _, _, rfl⟩ := h
    exact Nat.le_succ_of_le (readDigits?_length hr)
  · simp only [Option.bind_eq_bind, Option.bind_eq_some_iff, Prod.exists] at h
    obtain ⟨n, r, hr, h⟩ := h
    split at h
    · simp only [Option.some.injEq, Prod.mk.injEq] at h
      exact h.2 ▸ readDigits?_length hr
    · cases h

/-- The bytes that the inside of a double-quoted literal stands for; a line break or a bare quote
inside it is refused. -/
def unquote? (s : List Char) : Option (List UInt8) :=
  match s with
  | [] => some []
  | '\n' :: _ => none
  | '"' :: _ => none
  | '\\' :: rest =>
    match h : readEscape? rest with
    | some (bytes, rest') =>
      have : rest'.length ≤ rest.length := readEscape?_length h
      (unquote? rest').map (bytes ++ ·)
    | none => none
  | c :: rest => (unquote? rest).map (utf8Bytes c ++ ·)
termination_by s.length

end Bytecode.Text
