import Bytecode.Assembly.Error
import Bytecode.Assembly.Token
import Bytecode.ConstantPool

/-!
Assembling code arrays from text. Each line holds an optional label and an optional instruction.
Operands that name constants are added to a constant pool as they are met, so a failure leaves the
pool with what the lines before it added.

* `assemble`: the code of a text, with its labels, and the pool that it leaves.
-/
namespace Bytecode

namespace Assembly

/-- The state between two lines: the code so far, the pool, the number of the line, and each label
branched to with the line of its first use. -/
structure Assembler where
  builder : CodeBuilder := .empty
  pool : ConstantPool
  line : Nat := 0
  uses : List (String × Nat) := []

/-- Steps of the assembler. A failure keeps the state. -/
abbrev Asm := ExceptT Cause (StateM Assembler)

def emit (f : CodeBuilder → CodeBuilder) : Asm Unit :=
  modify fun a => { a with builder := f a.builder }

def intern (f : ConstantPool → ConstantPool × Nat) : Asm Int :=
  modifyGet fun a =>
    let (pool, index) := f a.pool
    (index, { a with pool })

def use (labels : List String) : Asm Unit :=
  modify fun a => { a with
    uses := labels.foldl (fun uses label =>
      if uses.any (·.1 == label) then uses else (label, a.line) :: uses) a.uses }

/-! ### Operands -/

def integer (s : List Char) : Asm Int :=
  match Text.parseInteger? 32 s with
  | some n => pure n
  | none => throw (.integer (String.ofList s))

/-- A pool index: a number after `#`, or what `add` makes of the text. -/
def poolIndex (s : List Char) (add : Asm Int) : Asm Int :=
  match s with
  | '#' :: digits => integer digits
  | _ => add

/-- Owner and name of a member, which the last dot divides. -/
def splitMember? (s : List Char) : Option (String × String) :=
  match Text.cutLast? '.' s with
  | some (owner, name) =>
    if owner.isEmpty || name.isEmpty then none
    else some (String.ofList owner, String.ofList name)
  | none => none

def splitMethod (s : List Char) : Asm (String × String × String) :=
  match Text.cut? '(' s with
  | none => throw (.noDescriptor (String.ofList s))
  | some (member, args) =>
    match splitMember? member with
    | none => throw (.methodReference (String.ofList s))
    | some (owner, name) => return (owner, name, String.ofList ('(' :: args))

def classOperand (s : List Char) : Asm Int :=
  poolIndex s (intern (·.addClass (String.ofList s)))

/-- A number that a suffix or its form makes a long, a float, a double or an int; `wide` asks for a
long or double. -/
def numberLiteral (wide : Bool) (s : List Char) : Asm Int := do
  let text := String.ofList s
  let last := s.getLast?.getD ' '
  if last == 'L' || last == 'l' then
    if !wide then throw (.longNeedsWide text)
    match Text.parseInteger? 64 s.dropLast with
    | some n => intern (·.addLong (Int64.ofInt n))
    | none => throw (.longLiteral text)
  else if last == 'f' || last == 'F' then
    if wide then throw (.floatNeedsNarrow text)
    match (Text.parseReal? s.dropLast).bind FloatFormat.binary32.ofNumeral? with
    | some bits => intern (·.addFloat bits.toUInt32)
    | none => throw (.floatLiteral text)
  else if last == 'd' || last == 'D' || (wide && s.any (".eE".toList.contains ·)) then
    if !wide then throw (.doubleNeedsWide text)
    let digits := (s.reverse.dropWhile fun c => c == 'd' || c == 'D').reverse
    match (Text.parseReal? digits).bind FloatFormat.binary64.ofNumeral? with
    | some bits => intern (·.addDouble bits.toUInt64)
    | none => throw (.doubleLiteral text)
  else if wide then throw (.wideNeedsSuffix text)
  else match Text.parseInteger? 32 s with
    | some n => intern (·.addInteger (Int32.ofInt n))
    | none => throw (.intLiteral text)

def literal (op : Opcode) (wide : Bool) (s : List Char) (more : List (List Char)) : Asm Int :=
  match s, more with
  | '#' :: digits, _ => integer digits
  | s, more =>
    if s = "class".toList then
      match more with
      | [name] => intern (·.addClass (String.ofList name))
      | _ => throw (.takesOne op "class")
    else if s = "methodtype".toList then
      match more with
      | [desc] => intern (·.addMethodType (String.ofList desc))
      | _ => throw (.takesOne op "methodtype")
    else if !more.isEmpty then throw (.takesLiteral op)
    else match s with
      | '"' :: rest =>
        match Text.unquote? rest.dropLast with
        | some bytes => intern (·.addString (.ofBytes bytes))
        | none => throw (.stringLiteral (String.ofList s))
      | s => numberLiteral wide s

def fieldOperand (op : Opcode) : List (List Char) → Asm Int
  | ['#' :: digits] => integer digits
  | [member, desc] =>
    match splitMember? member with
    | some (owner, name) => intern (·.addFieldref owner name (String.ofList desc))
    | none => throw (.fieldReference (String.ofList member))
  | _ => throw (.takesField op)

def constOperand (op : Opcode) : List (List Char) → Asm Int
  | [] => throw (.noOperand op)
  | s :: more =>
    match op.action with
    | .loadConst wide => literal op wide s more
    | .field _ => fieldOperand op (s :: more)
    | .invoke _ =>
      if !more.isEmpty then throw (.takesMethod op)
      else poolIndex s do
        let (owner, name, desc) ← splitMethod s
        intern (·.addMethodref owner name desc)
    | _ => if !more.isEmpty then throw (.takesClass op) else classOperand s

/-! ### Instructions -/

/-- A jump table: the least match, the default and a label for each match. -/
def tableSwitch : List (List Char) → Asm Unit
  | low :: word :: otherwise :: target :: targets => do
    if word ≠ "default".toList then throw .tableSwitchForm
    let low ← integer low
    let labels := (otherwise :: target :: targets).map String.ofList
    use labels
    emit (·.tableSwitch low (String.ofList otherwise) labels.tail)
  | _ => throw .tableSwitchForm

def switchPair (s : List Char) : Asm (Int × String) :=
  match Text.cut? ':' s with
  | some (key, c :: label) => return (← integer key, String.ofList (c :: label))
  | _ => throw (.switchPair (String.ofList s))

/-- A sparse switch: the default and pairs of a match and a label. -/
def lookupSwitch : List (List Char) → Asm Unit
  | word :: otherwise :: pairs => do
    if word ≠ "default".toList then throw .lookupSwitchForm
    let pairs ← pairs.mapM switchPair
    let otherwise := String.ofList otherwise
    use (otherwise :: pairs.map Prod.snd)
    emit (·.lookupSwitch otherwise (pairs.map Prod.fst) (pairs.map Prod.snd))
  | _ => throw .lookupSwitchForm

def receiverSlots (desc : String) : Asm Int :=
  match MethodType.parse desc with
  | .ok type => return type.argumentSlots + 1
  | .error e => throw (.descriptor e)

/-- A call through an interface; a missing or negative count is computed from the descriptor. -/
def invokeInterface (s : List Char) (count : Option Int) : Asm Unit := do
  let given := count.filter (0 ≤ ·)
  match s with
  | '#' :: digits =>
    let index ← integer digits
    match given with
    | some count => emit (·.invokeInterface index count)
    | none => throw .interfaceCount
  | s =>
    let (owner, name, desc) ← splitMethod s
    let count ← match given with
      | some count => pure count
      | none => receiverSlots desc
    let index ← intern (·.addInterfaceMethodref owner name desc)
    emit (·.invokeInterface index count)

def callSite (s : List Char) : Asm Int :=
  match Text.cut? '(' s with
  | some (c :: name, args) =>
    intern (·.addInvokeDynamic 0 (String.ofList (c :: name)) (String.ofList ('(' :: args)))
  | _ => throw (.callSite (String.ofList s))

/-- The code of an array element: a primitive type by its word, or any number. -/
def elementOperand (s : List Char) : Asm UInt8 :=
  match elementCodes.lookup (String.ofList s) with
  | some code => return code
  | none =>
    match Text.parseInteger? 32 s with
    | some n => return lowByte n
    | none => throw (.elementType (String.ofList s))

def instruction (op : Opcode) (args : List (List Char)) : Asm Unit :=
  let wants (n : Nat) : Asm Unit := throw (.operandCount op n args.length)
  match op.format, args with
  | .none, [] => emit (·.emit op)
  | .none, _ => wants 0
  | .byte, [s] | .short, [s] => do
    let n ← integer s
    emit (·.immediate op n)
  | .slot, [s] => do
    let n ← integer s
    emit (·.slot op n)
  | .iinc, [s, d] => do
    let index ← integer s
    let delta ← integer d
    emit (·.increment index delta)
  | .iinc, _ => wants 2
  | .branch, [s] | .branchWide, [s] => do
    let label := String.ofList s
    use [label]
    emit (·.branch op label)
  | .const8, args | .const16, args => do
    let index ← constOperand op args
    emit (·.const op index)
  | .tableSwitch, args => tableSwitch args
  | .lookupSwitch, args => lookupSwitch args
  | .invokeInterface, [s] => invokeInterface s none
  | .invokeInterface, [s, n] => do
    let count ← integer n
    invokeInterface s (some count)
  | .invokeInterface, _ => throw .interfaceForm
  | .invokeDynamic, [s] => do
    let index ← poolIndex s (callSite s)
    emit (·.invokeDynamic index)
  | .newArray, [s] => do
    let code ← elementOperand s
    emit (·.newArray code)
  | .multiNewArray, [s, n] => do
    let index ← classOperand s
    let dims ← integer n
    emit (·.multiNewArray index dims)
  | .multiNewArray, _ => wants 2
  | .wide, _ => throw .explicitWide
  | _, _ => wants 1

/-! ### Lines -/

/-- Binds the label that a line may start with, and gives the tokens after it. -/
def bindLabel (tokens : List (List Char)) : Asm (List (List Char)) :=
  match tokens with
  | [] => return []
  | token :: rest =>
    match label? token with
    | none => return token :: rest
    | some chars => do
      let label := String.ofList chars
      if ((← get).builder.offset? label).isSome then throw (.labelTwice label)
      emit (·.mark label)
      return rest

def assembleLine (line : List Char) : Asm Unit := do
  let some tokens := tokens? line | throw .unterminatedString
  match ← bindLabel tokens with
  | [] => return
  | name :: args =>
    let some op := Opcode.ofName? (String.ofList name)
      | throw (.unknownInstruction (String.ofList name))
    instruction op args
    if let some e := (← get).builder.fault then throw (.builder e)

def assembleLines (a : Assembler) : List (List Char) → Option SyntaxError × Assembler
  | [] => (none, a)
  | line :: rest =>
    match (assembleLine line).run.run { a with line := a.line + 1 } with
    | (.ok (), a) => assembleLines a rest
    | (.error cause, a) => (some ⟨a.line, String.ofList line, cause⟩, a)

/-- Does one use come before another: on an earlier line, or on the same line with a lesser
label? -/
def usedBefore (a b : String × Nat) : Bool :=
  a.2 < b.2 || (a.2 == b.2 && a.1 < b.1)

def undefinedUse? (a : Assembler) : Option (String × Nat) :=
  (a.uses.filter fun use => (a.builder.offset? use.1).isNone).foldl (fun first use =>
    match first with
    | some best => if usedBefore use best then some use else first
    | none => some use) none

end Assembly

structure Assembly where
  code : Array UInt8
  labels : List (String × Nat)
  deriving DecidableEq, Repr

namespace Assembly

def finish (src : String) (lines : List (List Char)) (a : Assembler) :
    Except SyntaxError Assembly :=
  if a.builder.length = 0 then .error ⟨1, src, .noInstructions⟩
  else
    let fault (line : Nat) (cause : Cause) : SyntaxError :=
      ⟨line, String.ofList (lines[line - 1]?.getD []), cause⟩
    match undefinedUse? a with
    | some (label, line) => .error (fault line (.undefinedLabel label))
    | none =>
      match a.builder.finish with
      | .ok code => .ok ⟨code, a.builder.labels.toList⟩
      | .error e => .error (fault a.line (.builder e))

/-- Assembles a text, adding its constants to a pool. -/
def assemble (src : String) (pool : ConstantPool) : Except SyntaxError Assembly × ConstantPool :=
  let lines := Text.splitOn '\n' src.toList
  match assembleLines { pool } lines with
  | (some e, a) => (.error e, a.pool)
  | (none, a) => (finish src lines a, a.pool)

end Assembly

end Bytecode
