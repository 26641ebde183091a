import Bytecode.Text.Quoted

/-!
Descriptors: the text form of field and method types.

A field type is a base type under some array dimensions; a method type is a list of argument types
and a result, which may be missing (void).

* `FieldType.parse`, `MethodType.parse`: read a whole descriptor;
* `FieldType.descriptor`, `MethodType.descriptor`: write it;
* `FieldType.parseClass`: the operand of a class constant, a class name or an array descriptor.
-/
namespace Bytecode

inductive BaseType where
  | boolean
  | byte
  | char
  | short
  | int
  | long
  | float
  | double
  | object (name : String)
  deriving DecidableEq, Repr

/-- A field type: `dims` array dimensions over an element. -/
structure FieldType where
  element : BaseType
  dims : Nat
  deriving DecidableEq, Repr

/-- A method type. A missing result is void. -/
structure MethodType where
  args : List FieldType
  result : Option FieldType
  deriving DecidableEq, Repr

inductive DescriptorError where
  | trailing (rest whole : String)
  | voidField
  | className (name : String)
  | dimensions
  | ended
  | unterminatedClass (text : String)
  | character (byte : UInt8)
  | voidArray
  | noParenthesis (whole : String)
  | unterminatedArguments (whole : String)
  | inMethod (whole : String) (cause : DescriptorError)
  | voidArgument (whole : String)
  | argumentSlots (whole : String)
  deriving DecidableEq, Repr

def DescriptorError.message : DescriptorError → String
  | .trailing rest whole =>
    "malformed descriptor: trailing " ++ Text.quote rest ++ " in " ++ Text.quote whole
  | .voidField => "malformed descriptor: void is not a field type"
  | .className name => "malformed descriptor: bad class name " ++ Text.quote name
  | .dimensions => "malformed descriptor: more than 255 array dimensions"
  | .ended => "malformed descriptor: unexpected end"
  | .unterminatedClass text =>
    "malformed descriptor: unterminated class name in " ++ Text.quote text
  | .character byte =>
    "malformed descriptor: unknown type character " ++ Text.quoteChar (Char.ofUInt8 byte)
  | .voidArray => "malformed descriptor: array of void"
  | .noParenthesis whole =>
    "malformed descriptor: " ++ Text.quote whole ++ " does not start with '('"
  | .unterminatedArguments whole =>
    "malformed descriptor: unterminated argument list in " ++ Text.quote whole
  | .inMethod whole cause => whole ++ ": " ++ cause.message
  | .voidArgument whole => "malformed descriptor: void argument in " ++ Text.quote whole
  | .argumentSlots whole =>
    "malformed descriptor: " ++ Text.quote whole ++ " takes more than 255 argument slots"

def firstByte (c : Char) : UInt8 :=
  let n := c.toNat
  if n < 0x80 then n.toUInt8
  else if n < 0x800 then (0xc0 + n / 0x40).toUInt8
  else if n < 0x10000 then (0xe0 + n / 0x1000).toUInt8
  else (0xf0 + n / 0x40000).toUInt8

namespace BaseType

def descriptor : BaseType → String
  | .boolean => "Z"
  | .byte => "B"
  | .char => "C"
  | .short => "S"
  | .int => "I"
  | .long => "J"
  | .float => "F"
  | .double => "D"
  | .object name => "L" ++ name ++ ";"

def ofChar? (c : Char) : Option BaseType :=
  match c with
  | 'Z' => some .boolean
  | 'B' => some .byte
  | 'C' => some .char
  | 'S' => some .short
  | 'I' => some .int
  | 'J' => some .long
  | 'F' => some .float
  | 'D' => some .double
  | _ => none

end BaseType

namespace FieldType

def isArray (t : FieldType) : Bool :=
  0 < t.dims

def isReference (t : FieldType) : Bool :=
  t.isArray || match t.element with
    | .object _ => true
    | _ => false

def size (t : FieldType) : Nat :=
  if t.isArray then 1
  else match t.element with
    | .long | .double => 2
    | _ => 1

def descriptor (t : FieldType) : String :=
  String.ofList (List.replicate t.dims '[') ++ t.element.descriptor

/-- Reads one type at the head of a text, and gives the rest. Void is `none` and is no element of
an array. -/
def read (s : List Char) :
    Except DescriptorError (Option FieldType × { rest : List Char // rest.length < s.length }) :=
  let dims := (s.takeWhile (· == '[')).length
  have le : (s.dropWhile (· == '[')).length ≤ s.length := (List.dropWhile_sublist _).length_le
  if dims > 255 then .error .dimensions
  else
    match h : s.dropWhile (· == '[') with
    | [] => .error .ended
    | 'L' :: tail =>
      match h' : tail.dropWhile (· != ';') with
      | [] => .error (.unterminatedClass (String.ofList ('L' :: tail)))
      | _ :: rest =>
        have le' : (tail.dropWhile (· != ';')).length ≤ tail.length :=
          (List.dropWhile_sublist _).length_le
        let name := tail.takeWhile (· != ';')
        if name.isEmpty then .error (.unterminatedClass (String.ofList ('L' :: tail)))
        else .ok (some ⟨.object (String.ofList name), dims⟩,
          ⟨rest, by simp [h] at le; simp [h'] at le'; omega⟩)
    | 'V' :: rest =>
      if dims > 0 then .error .voidArray
      else .ok (none, ⟨rest, by simp [h] at le; omega⟩)
    | c :: rest =>
      match BaseType.ofChar? c with
      | some element => .ok (some ⟨element, dims⟩, ⟨rest, by simp [h] at le; omega⟩)
      | none => .error (.character (firstByte c))

/-- A text is the brackets at its head, then the rest. -/
theorem brackets_append (s : List Char) :
    s = List.replicate (s.takeWhile (· == '[')).length '[' ++ s.dropWhile (· == '[') := by
  have same : s.takeWhile (· == '[') = List.replicate (s.takeWhile (· == '[')).length '[' := by
    induction s with
    | nil => rfl
    | cons c s ih =>
      by_cases h : c = '['
      · subst h
        simpa [List.replicate_succ] using ih
      · simp [h]
  rw [← same, List.takeWhile_append_dropWhile]

theorem descriptor_of_ofChar? {c : Char} {t : BaseType} (h : BaseType.ofChar? c = some t) :
    t.descriptor.toList = [c] := by
  unfold BaseType.ofChar? at h
  split at h <;> cases h <;> rfl

/-- What `read` takes from a text is the descriptor of the type it gives. -/
theorem read_eq {s : List Char} {t : FieldType}
    {rest : { rest : List Char // rest.length < s.length }}
    (h : read s = .ok (some t, rest)) : s = t.descriptor.toList ++ rest.val := by
  refine (brackets_append s).trans ?_
  unfold read at h
  simp only at h
  split at h
  · cases h
  · split at h
    · cases h
    · next tail hs =>
      split at h
      · cases h
      · next last rest' ht =>
        split at h
        · cases h
        · have close : last = ';' := by
            simpa [ht] using List.head?_dropWhile_not (· != ';') tail
          have whole := List.takeWhile_append_dropWhile (p := (· != ';')) (l := tail)
          rw [ht, close] at whole
          cases h
          simp [descriptor, BaseType.descriptor, String.toList_append, hs, whole]
    · split at h <;> cases h
    · next c rest' _ _ hs =>
      split at h
      · next element he =>
        cases h
        simp [descriptor, String.toList_append, hs, descriptor_of_ofChar? he]
      · cases h

def parse (desc : String) : Except DescriptorError FieldType := do
  let (type, ⟨rest, _⟩) ← read desc.toList
  if rest ≠ [] then .error (.trailing (String.ofList rest) desc)
  else match type with
    | some type => .ok type
    | none => .error .voidField

theorem descriptor_of_parse {desc : String} {t : FieldType} (h : parse desc = .ok t) :
    t.descriptor = desc := by
  unfold parse at h
  cases hr : read desc.toList with
  | error e => simp [hr, bind, Except.bind] at h
  | ok r =>
    obtain ⟨type, rest, lt⟩ := r
    simp only [hr, bind, Except.bind] at h
    split at h
    · cases h
    · next nil =>
      cases type with
      | none => cases h
      | some type =>
        cases h
        have whole := read_eq hr
        simp only [ne_eq, Decidable.not_not] at nil
        subst nil
        exact String.toList_inj.1 (by simpa using whole.symm)

/-- Reads the operand of a class constant: an array descriptor or a class name. -/
def parseClass (name : String) : Except DescriptorError FieldType :=
  match name.toList with
  | '[' :: _ => parse name
  | s =>
    if s.isEmpty || s.contains ';' || s.contains '[' then .error (.className name)
    else .ok ⟨.object name, 0⟩

end FieldType

namespace MethodType

def argumentSlots (m : MethodType) : Nat :=
  m.args.foldr (fun t n => t.size + n) 0

def resultSlots (m : MethodType) : Nat :=
  match m.result with
  | some t => t.size
  | none => 0

def resultDescriptor : Option FieldType → String
  | some t => t.descriptor
  | none => "V"

def descriptor (m : MethodType) : String :=
  "(" ++ String.join (m.args.map FieldType.descriptor) ++ ")" ++ resultDescriptor m.result

/-- Reads argument types up to the closing parenthesis, and gives what follows it. -/
def readArguments (whole : String) (s : List Char) :
    Except DescriptorError (List FieldType × List Char) :=
  match s with
  | [] => .error (.unterminatedArguments whole)
  | ')' :: rest => .ok ([], rest)
  | s =>
    match FieldType.read s with
    | .error cause => .error (.inMethod whole cause)
    | .ok (none, _) => .error (.voidArgument whole)
    | .ok (some type, ⟨rest, _⟩) => do
      let (types, rest) ← readArguments whole rest
      return (type :: types, rest)
termination_by s.length

def parse (desc : String) : Except DescriptorError MethodType :=
  match desc.toList with
  | '(' :: s => do
    let (args, s) ← readArguments desc s
    match FieldType.read s with
    | .error cause => .error (.inMethod desc cause)
    | .ok (result, ⟨rest, _⟩) =>
      let m : MethodType := ⟨args, result⟩
      if rest ≠ [] then .error (.trailing (String.ofList rest) desc)
      else if m.argumentSlots > 255 then .error (.argumentSlots desc)
      else .ok m
  | _ => .error (.noParenthesis desc)

end MethodType

end Bytecode
