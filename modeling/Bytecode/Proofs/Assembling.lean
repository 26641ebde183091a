import Mathlib.Data.List.Forall2
import Bytecode.Assembly
import Bytecode.Proofs.Emissions

/-!
What an instruction line of assembly text emits.

An instruction is assembled in steps that read its operands, which change the pool alone, and one
last step that emits it, with a record of the labels that it branches to. Two kinds of statements
follow this shape: `Gives` is about the operands and `Emits` about the whole line.

Main statement: `emits_instruction`, what a line emits is faithful to it, or is one of three slips.
-/
namespace Bytecode

open Emission List

/-! ### Instructions and their lines -/

namespace Assembly

/-- A text writes a number. -/
def Writes (s : List Char) (n : Int) : Prop :=
  Text.parseInteger? 32 s = some n

/-- A pool index is the one that a text writes, if it writes one. -/
def Refers (s : List Char) (index : Nat) : Prop :=
  ∀ digits, s = '#' :: digits → Writes digits index

/-- The pool index that the operands of an instruction write. A field access with a descriptor
writes none, even if the name of the class starts with the sign of an index. -/
def rawIndex? (op : Opcode) : List (List Char) → Option (List Char)
  | ['#' :: digits] => some digits
  | ('#' :: digits) :: _ =>
    match op.action with
    | .field _ => none
    | _ => some digits
  | _ => none

/-- The opcode for a pool index: `ldc` has no room for one above 255. -/
def widened (op : Opcode) (index : Nat) : Opcode :=
  if op = .ldc ∧ 255 < index then .ldcW else op

/-- The slots that the arguments of a method take with its receiver, by the descriptor that starts
at the first parenthesis. -/
def TakesSlots (s : List Char) (count : Nat) : Prop :=
  ∃ member args type, s = member ++ '(' :: args ∧ '(' ∉ member ∧
    MethodType.parse (String.ofList ('(' :: args)) = .ok type ∧ count = type.argumentSlots + 1

section

variable (offset? : String → Option Nat)

/-- A text names the label at an offset. -/
def Names (s : List Char) (target : Int) : Prop :=
  ∃ pos : Nat, offset? (String.ofList s) = some pos ∧ target = pos

/-- A text is a match and a label with a colon between them. -/
def NamesCase (s : List Char) (pair : Int × Int) : Prop :=
  ∃ key label, s = key ++ ':' :: label ∧ ':' ∉ key ∧ Writes key pair.1 ∧
    Names offset? label pair.2

/-- An instruction has the opcode of its line, the numbers that are written there, and the offsets
of the labels that are named there. -/
inductive Faithful (op : Opcode) : List (List Char) → Instruction → Prop
  | plain {pos : Nat} : Faithful op [] ⟨pos, op, false, .none⟩
  | immediate {pos : Nat} {s : List Char} {n : Int} :
      Writes s n → Faithful op [s] ⟨pos, op, false, .immediate n⟩
  | slot {pos : Nat} {wide : Bool} {s : List Char} {index : Nat} :
      Writes s index → Faithful op [s] ⟨pos, op, wide, .slot index⟩
  | increment {pos : Nat} {wide : Bool} {s d : List Char} {index : Nat} {delta : Int} :
      Writes s index → Writes d delta → Faithful op [s, d] ⟨pos, op, wide, .increment index delta⟩
  | branch {pos : Nat} {s : List Char} {target : Int} :
      Names offset? s target → Faithful op [s] ⟨pos, op, false, .target target⟩
  | const {pos : Nat} {args : List (List Char)} {index : Nat} :
      (∀ digits ∈ rawIndex? op args, Writes digits index ∧ args.length = 1) →
        Faithful op args ⟨pos, widened op index, false, .const index⟩
  | table {pos : Nat} {s word otherwise : List Char} {labels : List (List Char)}
      {first low : Int} {targets : List Int} :
      Writes s low → Names offset? otherwise first →
        Forall₂ (Names offset?) labels targets →
          Faithful op (s :: word :: otherwise :: labels) ⟨pos, op, false, .table first low targets⟩
  | lookup {pos : Nat} {word otherwise : List Char} {cases : List (List Char)} {first : Int}
      {pairs : List (Int × Int)} :
      Names offset? otherwise first → Forall₂ (NamesCase offset?) cases pairs →
        Faithful op (word :: otherwise :: cases) ⟨pos, op, false, .lookup first pairs⟩
  | interfaceCall {pos : Nat} {s : List Char} {index count : Nat} :
      Refers s index → TakesSlots s count →
        Faithful op [s] ⟨pos, op, false, .interfaceCall index count⟩
  | countedCall {pos : Nat} {s n : List Char} {index count : Nat} :
      Refers s index → Writes n count →
        Faithful op [s, n] ⟨pos, op, false, .interfaceCall index count⟩
  | dynamicCall {pos : Nat} {s : List Char} {index : Nat} :
      Refers s index → Faithful op [s] ⟨pos, op, false, .dynamicCall index⟩
  | element {pos : Nat} {s : List Char} {code : UInt8} :
      (elementCodes.lookup (String.ofList s) = some code ∨ Writes s code.toNat) →
        Faithful op [s] ⟨pos, op, false, .element code⟩
  | multiArray {pos : Nat} {s d : List Char} {index dims : Nat} :
      Refers s index → Writes d dims → Faithful op [s, d] ⟨pos, op, false, .multiArray index dims⟩

end

/-- An instruction misses a number that is written in its line: an element code is cut down to its
low byte, a count below zero is replaced by that of the descriptor, and what stands after the pool
index of a constant is passed over. -/
inductive Slip (op : Opcode) : List (List Char) → Instruction → Prop
  | element {pos : Nat} {s : List Char} {n : Int} :
      elementCodes.lookup (String.ofList s) = none → Writes s n → (n < 0 ∨ 255 < n) →
        Slip op [s] ⟨pos, op, false, .element (lowByte n)⟩
  | count {pos : Nat} {s d : List Char} {n : Int} {index count : Nat} :
      Refers s index → Writes d n → n < 0 → TakesSlots s count →
        Slip op [s, d] ⟨pos, op, false, .interfaceCall index count⟩
  | passedOver {pos : Nat} {args : List (List Char)} {digits : List Char} {index : Nat} :
      rawIndex? op args = some digits → Writes digits index → 1 < args.length →
        Slip op args ⟨pos, widened op index, false, .const index⟩

section

variable {offset? : String → Option Nat} {op : Opcode} {args : List (List Char)}
  {ins : Instruction}

theorem Faithful.of_const {index : Nat} (h : Faithful offset? op args ins)
    (hins : ins.operand = .const index) : ∀ digits ∈ rawIndex? op args, args.length = 1 := by
  cases h with
  | const hraw => exact fun digits hdigits => (hraw digits hdigits).2
  | _ => cases hins

theorem Faithful.of_element {s : List Char} {code : UInt8} (h : Faithful offset? op [s] ins)
    (hins : ins.operand = .element code) :
    elementCodes.lookup (String.ofList s) = some code ∨ Writes s code.toNat := by
  cases h with
  | element hcode =>
    cases hins
    exact hcode
  | _ => cases hins

theorem Faithful.of_count {s d : List Char} {index count : Nat}
    (h : Faithful offset? op [s, d] ins) (hins : ins.operand = .interfaceCall index count) :
    Writes d count := by
  cases h with
  | countedCall _ hcount =>
    cases hins
    exact hcount
  | _ => cases hins

/-- No slip is faithful: what is written and what is read differ. -/
theorem Slip.not_faithful (h : Slip op args ins) : ¬ Faithful offset? op args ins := by
  intro hfaithful
  cases h with
  | @element _ s n hnone hn hrange =>
    rcases hfaithful.of_element rfl with hsome | hcode
    · rw [hnone] at hsome
      cases hsome
    · have hsame : n = (lowByte n).toNat := Option.some.inj (hn.symm.trans hcode)
      have hlt := (lowByte n).toNat_lt
      omega
  | count _ hn hneg _ =>
    have hsame := Option.some.inj (hn.symm.trans (hfaithful.of_count rfl))
    omega
  | passedOver hraw _ hmore =>
    have hone := hfaithful.of_const rfl _ hraw
    omega

end

/-- An emission stands for an instruction that is faithful to its line, but for a slip. -/
def Renders (op : Opcode) (args : List (List Char)) (e : Emission) : Prop :=
  ∀ offset? pos ins, e.instruction? offset? pos = some ins →
    Faithful offset? op args ins ∨ Slip op args ins

/-- The labels that an instruction names: the operand of a branch, what follows the word `default`
of a jump table, and the default of a sparse switch with what follows the colons of its pairs. -/
def targets (op : Opcode) (args : List (List Char)) : List String :=
  match op.format with
  | .branch | .branchWide => args.map String.ofList
  | .tableSwitch => (args.drop 2).map String.ofList
  | .lookupSwitch =>
    ((args.drop 1).take 1 ++ (args.drop 2).map fun s => (s.dropWhile (· ≠ ':')).tail).map
      String.ofList
  | _ => []

/-- An emission is that of a line, with the labels that are named there. -/
def Belongs (op : Opcode) (args : List (List Char)) (e : Emission) : Prop :=
  Renders op args e ∧ e.labels = targets op args

/-! ### Steps -/

section Steps

variable {α β : Type}

/-- What a step gives, and the state after it. -/
def after (x : Asm α) (a : Assembler) : Except Cause α × Assembler :=
  x.run.run a

/-- A step ends with a value and a state. -/
def Ends (x : Asm α) (a : Assembler) (v : α) (a' : Assembler) : Prop :=
  after x a = (.ok v, a')

variable {x : Asm α} {P : α → Prop} {a a' : Assembler} {c : Cause} {f : CodeBuilder → CodeBuilder}

theorem ends_pure {v w : α} : Ends (pure v) a w a' ↔ v = w ∧ a = a' := by
  show (Except.ok v, a) = (Except.ok w, a') ↔ _
  simp

theorem ends_get {b : Assembler} : Ends get a b a' ↔ a = b ∧ a = a' := by
  show (Except.ok a, a) = (Except.ok b, a') ↔ _
  simp

theorem after_bind_ok {v : α} (h : after x a = (.ok v, a')) (f : α → Asm β) :
    after (x >>= f) a = after (f v) a' :=
  run_bind_ok h f

theorem after_bind_error (h : after x a = (.error c, a')) (f : α → Asm β) :
    after (x >>= f) a = (.error c, a') :=
  run_bind_error h f

theorem ends_bind {f : α → Asm β} {w : β} {a'' : Assembler} :
    Ends (x >>= f) a w a'' ↔ ∃ v a', Ends x a v a' ∧ Ends (f v) a' w a'' := by
  unfold Ends
  rcases hx : after x a with ⟨c | v, a'⟩
  · rw [after_bind_error hx]
    simp
  · rw [after_bind_ok hx]
    simp

theorem not_ends_throw {v : α} : ¬ Ends (throw c) a v a' := by
  show ¬ (Except.error c, a) = (Except.ok v, a')
  simp

theorem ends_emit {u : Unit} : Ends (emit f) a u a' ↔ { a with builder := f a.builder } = a' := by
  show (Except.ok (), _) = (Except.ok u, a') ↔ _
  simp

/-- A step changes the pool alone, and its value, if there is one, is as it should be. -/
def Gives (x : Asm α) (P : α → Prop) : Prop :=
  ∀ ⦃a v a'⦄, Ends x a v a' → P v ∧ ∃ pool, a' = { a with pool }

/-- A step records the labels of one instruction, which is as it should be, and emits it. -/
def Emits (x : Asm Unit) (Q : Emission → Prop) : Prop :=
  ∀ ⦃a u a'⦄, Ends x a u a' → ∃ (e : Emission) (pool : ConstantPool), Q e ∧
    a' = { a with pool, builder := e.apply a.builder, uses := (after (use e.labels) a).2.uses }

theorem Gives.pure {v : α} (h : P v) : Gives (Pure.pure v) P := by
  intro a w a' hends
  obtain ⟨rfl, rfl⟩ := ends_pure.1 hends
  exact ⟨h, _, rfl⟩

theorem Gives.throw (c : Cause) : Gives (throw c) P := by
  intro a v a' hends
  exact absurd hends not_ends_throw

theorem Gives.bind {f : α → Asm β} {R : β → Prop} (hx : Gives x P)
    (hf : ∀ v, P v → Gives (f v) R) : Gives (x >>= f) R := by
  intro a w a'' hends
  obtain ⟨v, a', hfirst, hrest⟩ := ends_bind.1 hends
  obtain ⟨hv, pool, rfl⟩ := hx hfirst
  obtain ⟨hw, pool, rfl⟩ := hf v hv hrest
  exact ⟨hw, pool, rfl⟩

theorem Gives.imp {R : α → Prop} (hx : Gives x P) (h : ∀ v, P v → R v) : Gives x R := by
  intro a v a' hends
  exact (hx hends).imp_left (h v)

theorem Gives.mapM {f : α → Asm β} {P : α → β → Prop} (hf : ∀ s, Gives (f s) (P s))
    (l : List α) : Gives (l.mapM f) (Forall₂ P l) := by
  induction l with
  | nil =>
    rw [mapM_nil]
    exact .pure .nil
  | cons s l ih =>
    rw [mapM_cons]
    refine (hf s).bind fun v hv => ih.bind fun vs hvs => ?_
    exact .pure (.cons hv hvs)

theorem gives_intern (f : ConstantPool → ConstantPool × Nat) : Gives (intern f) fun _ => True := by
  intro a v a' hends
  have hstate : { a with pool := (f a.pool).1 } = a' := congrArg Prod.snd hends
  exact ⟨trivial, _, hstate.symm⟩

theorem Emits.throw {Q : Emission → Prop} (c : Cause) : Emits (throw c) Q := by
  intro a u a' hends
  exact absurd hends not_ends_throw

theorem Emits.bind {f : α → Asm Unit} {Q : Emission → Prop} (hx : Gives x P)
    (hf : ∀ v, P v → Emits (f v) Q) : Emits (x >>= f) Q := by
  intro a u a'' hends
  obtain ⟨v, a', hfirst, hrest⟩ := ends_bind.1 hends
  obtain ⟨hv, pool, rfl⟩ := hx hfirst
  obtain ⟨e, pool, he, rfl⟩ := hf v hv hrest
  exact ⟨e, pool, he, rfl⟩

variable {op : Opcode} {args : List (List Char)} {e : Emission} {labels : List String}

theorem emits_emit (hf : ∀ b, f b = e.apply b) (he : Renders op args e)
    (htargets : targets op args = []) (hlabels : e.labels = []) :
    Emits (emit f) (Belongs op args) := by
  intro a u a' hends
  refine ⟨e, a.pool, ⟨he, hlabels.trans htargets.symm⟩, ?_⟩
  rw [← ends_emit.1 hends, hf, hlabels]
  rfl

theorem emits_use (hf : ∀ b, f b = e.apply b) (he : Belongs op args e)
    (hlabels : e.labels = labels) : Emits (do use labels; emit f) (Belongs op args) := by
  intro a u a' hends
  obtain ⟨_, a₁, huse, hemit⟩ := ends_bind.1 hends
  have hstate : (after (use labels) a).2 = a₁ := congrArg Prod.snd huse
  refine ⟨e, a.pool, he, ?_⟩
  rw [← ends_emit.1 hemit, hf, ← hstate, hlabels]
  rfl

end Steps

/-! ### Operands -/

variable {s : List Char} {n : Int}

theorem cut?_eq_some {sep : Char} {before after : List Char}
    (h : Text.cut? sep s = some (before, after)) : s = before ++ sep :: after ∧ sep ∉ before := by
  induction s generalizing before after with
  | nil => cases h
  | cons c rest ih =>
    rw [Text.cut?] at h
    split at h
    · next hc =>
      cases h
      rw [beq_iff_eq.1 hc]
      exact ⟨rfl, by simp⟩
    · next hc =>
      obtain ⟨⟨front, back⟩, hcut, h⟩ := Option.map_eq_some_iff.1 h
      cases h
      obtain ⟨rfl, hfront⟩ := ih hcut
      have hne : sep ≠ c := by
        rintro rfl
        exact hc (beq_self_eq_true _)
      exact ⟨rfl, by simp [hne, hfront]⟩

theorem gives_integer (s : List Char) : Gives (integer s) (Writes s) := by
  unfold integer
  split
  · next n hn => exact .pure hn
  · exact .throw _

theorem gives_poolIndex {add : Asm Int} (hadd : Gives add fun _ => True) :
    Gives (poolIndex s add) fun n => ∀ digits, s = '#' :: digits → Writes digits n := by
  unfold poolIndex
  split
  · next digits =>
    refine (gives_integer digits).imp fun n hn => ?_
    rintro _ ⟨⟩
    exact hn
  · next hsign =>
    refine hadd.imp fun n _ digits hs => ?_
    exact absurd hs (hsign digits)

theorem gives_classOperand (s : List Char) :
    Gives (classOperand s) fun n => ∀ digits, s = '#' :: digits → Writes digits n :=
  gives_poolIndex (gives_intern _)

theorem gives_splitMethod (s : List Char) :
    Gives (splitMethod s) fun (_, _, desc) =>
      ∃ member args, s = member ++ '(' :: args ∧ '(' ∉ member ∧
        desc = String.ofList ('(' :: args) := by
  unfold splitMethod
  split
  · exact .throw _
  · next member args hcut =>
    obtain ⟨hs, hmember⟩ := cut?_eq_some hcut
    split
    · exact .throw _
    · exact .pure ⟨member, args, hs, hmember, rfl⟩

theorem gives_methodIndex (s : List Char) :
    Gives (poolIndex s do
      let (owner, name, desc) ← splitMethod s
      intern (·.addMethodref owner name desc))
      fun n => ∀ digits, s = '#' :: digits → Writes digits n :=
  gives_poolIndex ((gives_splitMethod s).bind fun _ _ => gives_intern _)

theorem gives_numberLiteral (wide : Bool) (s : List Char) :
    Gives (numberLiteral wide s) fun _ => True := by
  unfold numberLiteral
  dsimp only
  repeat' split
  all_goals first
    | exact gives_intern _
    | exact .throw _

theorem gives_literal (op : Opcode) (wide : Bool) (s : List Char) (more : List (List Char)) :
    Gives (literal op wide s more) fun n => ∀ digits, s = '#' :: digits → Writes digits n := by
  unfold literal
  split
  · next digits =>
    refine (gives_integer digits).imp fun n hn => ?_
    rintro _ ⟨⟩
    exact hn
  · next s _ hsign =>
    -- Without the sign of an index nothing is asked of the value.
    refine Gives.imp (P := fun _ => True) ?_ fun n _ digits hs => absurd hs (hsign digits)
    split
    · split
      · exact gives_intern _
      · exact .throw _
    · split
      · split
        · exact gives_intern _
        · exact .throw _
      · split
        · exact .throw _
        · split
          · split
            · exact gives_intern _
            · exact .throw _
          · exact gives_numberLiteral wide _

theorem gives_fieldOperand (op : Opcode) (args : List (List Char)) :
    Gives (fieldOperand op args) fun n => ∀ digits, args = ['#' :: digits] → Writes digits n := by
  unfold fieldOperand
  split
  · next digits =>
    refine (gives_integer digits).imp fun n hn => ?_
    rintro _ ⟨⟩
    exact hn
  · split
    · exact (gives_intern _).imp fun n _ digits h => by cases h
    · exact .throw _
  · exact .throw _

theorem gives_constOperand (op : Opcode) (args : List (List Char)) :
    Gives (constOperand op args) fun n => ∀ digits ∈ rawIndex? op args, Writes digits n := by
  have hraw : ∀ {s digits more}, digits ∈ rawIndex? op (s :: more) → s = '#' :: digits := by
    intro s digits more h
    unfold rawIndex? at h
    split at h
    · next heq =>
      cases heq
      cases h
      rfl
    · next heq =>
      cases heq
      split at h <;> cases h
      rfl
    · cases h
  unfold constOperand
  split
  · exact .throw _
  · next s more =>
    split
    · exact (gives_literal op _ s more).imp fun n hn digits h => hn digits (hraw h)
    · next access haction =>
      refine (gives_fieldOperand op (s :: more)).imp fun n hn digits h => hn digits ?_
      -- A field access with a descriptor writes no index.
      unfold rawIndex? at h
      split at h
      · next heq =>
        cases h
        exact heq
      · rw [haction] at h
        cases h
      · cases h
    · split
      · exact .throw _
      · exact (gives_methodIndex s).imp fun n hn digits h => hn digits (hraw h)
    · split
      · exact .throw _
      · exact (gives_classOperand s).imp fun n hn digits h => hn digits (hraw h)

/-- A text is a match and the name of a label with a colon between them. -/
def WritesCase (s : List Char) (pair : Int × String) : Prop :=
  ∃ key, s = key ++ ':' :: pair.2.toList ∧ ':' ∉ key ∧ Writes key pair.1

theorem gives_switchPair (s : List Char) : Gives (switchPair s) (WritesCase s) := by
  unfold switchPair
  split
  · next key c label hcut =>
    obtain ⟨hs, hkey⟩ := cut?_eq_some hcut
    refine (gives_integer key).bind fun n hn => .pure ⟨key, ?_, hkey, hn⟩
    rw [hs, String.toList_ofList]
  · exact .throw _

theorem gives_elementOperand (s : List Char) :
    Gives (elementOperand s) fun code =>
      elementCodes.lookup (String.ofList s) = some code ∨
        elementCodes.lookup (String.ofList s) = none ∧ ∃ n, Writes s n ∧ code = lowByte n := by
  unfold elementOperand
  split
  · next code hcode => exact .pure (.inl hcode)
  · next hnone =>
    split
    · next n hn => exact .pure (.inr ⟨hnone, n, hn, rfl⟩)
    · exact .throw _

theorem gives_receiverSlots {s member args : List Char} (hs : s = member ++ '(' :: args)
    (hmember : '(' ∉ member) :
    Gives (receiverSlots (String.ofList ('(' :: args))) fun n =>
      ∃ count : Nat, n = count ∧ TakesSlots s count := by
  unfold receiverSlots
  split
  · next type htype =>
    exact .pure ⟨type.argumentSlots + 1, by simp, member, args, type, hs, hmember, htype, rfl⟩
  · exact .throw _

/-! ### Emissions -/

theorem fitsSigned_of_parseInteger? {bits : Nat} (h : Text.parseInteger? bits s = some n) :
    fitsSigned bits n = true := by
  unfold Text.parseInteger? at h
  simp only [bind, Option.bind_eq_some_iff] at h
  obtain ⟨m, -, h⟩ := h
  have hpos : 0 < Nat.pow 2 (bits - 1) := Nat.pow_pos (by decide)
  simp only [fitsSigned, Bool.and_eq_true, decide_eq_true_eq]
  split at h <;> split at h <;> cases h <;> omega

theorem Writes.exists_int32 (h : Writes s n) : ∃ k : Int32, k.toInt = n := by
  obtain ⟨hge, hlt⟩ := fitsSigned_iff.1 (fitsSigned_of_parseInteger? h)
  exact ⟨Int32.ofInt n, Int32.toInt_ofInt_of_le hge hlt⟩

theorem opcode_const (op : Opcode) (index : Nat) : (const op index).opcode = widened op index := by
  have hbig : 255 < (index : Int) ↔ 255 < index := by omega
  unfold opcode widened
  simp only [hbig]

section Renders

variable {op : Opcode}

variable {s d word otherwise : List Char} {n : Int} {targets : List Nat} {cases : List (List Char)}
  {keys : List Int32}

theorem renders_immediate (h : Writes s n) : Renders op [s] (.immediate op n) := by
  rintro offset? pos _ ⟨⟩
  exact .inl (.immediate h)

theorem renders_slot (h : Writes s n) : Renders op [s] (.slot op n) := by
  intro offset? pos ins hins
  obtain ⟨operand, hoperand, rfl⟩ := Option.map_eq_some_iff.1 hins
  obtain ⟨index, hindex, rfl⟩ := Option.map_eq_some_iff.1 hoperand
  rw [Int.mem_toNat?.1 hindex] at h
  exact .inl (.slot h)

theorem renders_increment {delta : Int} (hs : Writes s n) (hd : Writes d delta) :
    Renders .iinc [s, d] (.increment n delta) := by
  intro offset? pos ins hins
  obtain ⟨operand, hoperand, rfl⟩ := Option.map_eq_some_iff.1 hins
  obtain ⟨index, hindex, rfl⟩ := Option.map_eq_some_iff.1 hoperand
  rw [Int.mem_toNat?.1 hindex] at hs
  exact .inl (.increment hs hd)

theorem renders_branch (s : List Char) : Renders op [s] (.branch op (String.ofList s)) := by
  intro offset? pos ins hins
  obtain ⟨operand, hoperand, rfl⟩ := Option.map_eq_some_iff.1 hins
  obtain ⟨target, htarget, rfl⟩ := Option.map_eq_some_iff.1 hoperand
  exact .inl (.branch ⟨target, htarget, rfl⟩)

theorem renders_const {args : List (List Char)}
    (h : ∀ digits ∈ rawIndex? op args, Writes digits n) : Renders op args (.const op n) := by
  intro offset? pos ins hins
  obtain ⟨operand, hoperand, rfl⟩ := Option.map_eq_some_iff.1 hins
  obtain ⟨index, hindex, rfl⟩ := Option.map_eq_some_iff.1 hoperand
  obtain rfl := Int.mem_toNat?.1 hindex
  rw [opcode_const]
  cases hraw : rawIndex? op args with
  | none =>
    refine .inl (.const ?_)
    rw [hraw]
    rintro _ ⟨⟩
  | some digits =>
    have hdigits := h digits hraw
    have hne : args ≠ [] := by
      rintro rfl
      cases hraw
    by_cases hone : args.length = 1
    · refine .inl (.const ?_)
      rw [hraw]
      rintro _ ⟨⟩
      exact ⟨hdigits, hone⟩
    · have hpos := length_pos_iff.2 hne
      exact .inr (.passedOver hraw hdigits (by omega))

theorem names_of_mapM {offset? : String → Option Nat} {labels : List (List Char)}
    (h : (labels.map String.ofList).mapM offset? = some targets) :
    Forall₂ (Names offset?) labels (targets.map Int.ofNat) := by
  induction labels generalizing targets with
  | nil =>
    cases h
    exact .nil
  | cons label labels ih =>
    simp only [map_cons, mapM_cons, bind, Option.bind_eq_some_iff, pure, Option.some.injEq] at h
    obtain ⟨first, hfirst, rest, hrest, rfl⟩ := h
    exact .cons ⟨first, hfirst, rfl⟩ (ih hrest)

theorem renders_table {labels : List (List Char)} {low : Int32} (hs : Writes s low.toInt) :
    Renders .tableswitch (s :: word :: otherwise :: labels)
      (.tableSwitch low (String.ofList otherwise) (labels.map String.ofList)) := by
  intro offset? pos ins hins
  obtain ⟨operand, hoperand, rfl⟩ := Option.map_eq_some_iff.1 hins
  simp only [operand?, bind, Option.bind_eq_some_iff, pure, Option.some.injEq] at hoperand
  obtain ⟨first, hfirst, rest, hrest, rfl⟩ := hoperand
  exact .inl (.table hs ⟨first, hfirst, rfl⟩ (names_of_mapM hrest))

theorem namesCase_of_mapM {offset? : String → Option Nat} {labels : List String}
    (hcases : Forall₂ WritesCase cases ((keys.map Int32.toInt).zip labels))
    (hlength : keys.length = labels.length) (h : labels.mapM offset? = some targets) :
    Forall₂ (NamesCase offset?) cases
      ((keys.map Int32.toInt).zip (targets.map Int.ofNat)) := by
  induction keys generalizing cases labels targets with
  | nil =>
    cases hcases
    exact .nil
  | cons key keys ih =>
    cases labels with
    | nil => cases hlength
    | cons label labels =>
      simp only [mapM_cons, bind, Option.bind_eq_some_iff, pure, Option.some.injEq] at h
      obtain ⟨first, hfirst, rest, hrest, rfl⟩ := h
      cases hcases with
      | cons hcase hcases =>
        obtain ⟨text, hs, hcolon, hkey⟩ := hcase
        refine .cons ⟨text, label.toList, hs, hcolon, hkey, first, ?_, rfl⟩
          (ih hcases (Nat.succ.inj hlength) hrest)
        rw [String.ofList_toList, hfirst]

theorem renders_lookup {labels : List String}
    (hcases : Forall₂ WritesCase cases ((keys.map Int32.toInt).zip labels))
    (hlength : keys.length = labels.length) :
    Renders .lookupswitch (word :: otherwise :: cases)
      (.lookupSwitch (String.ofList otherwise) keys labels) := by
  intro offset? pos ins hins
  obtain ⟨operand, hoperand, rfl⟩ := Option.map_eq_some_iff.1 hins
  simp only [operand?, bind, Option.bind_eq_some_iff, pure, Option.some.injEq] at hoperand
  obtain ⟨first, hfirst, rest, hrest, rfl⟩ := hoperand
  exact .inl (.lookup ⟨first, hfirst, rfl⟩ (namesCase_of_mapM hcases hlength hrest))

theorem refers {index : Nat} (h : ∀ digits, s = '#' :: digits → Writes digits n)
    (hindex : n.toNat? = some index) : Refers s index := by
  rwa [Int.mem_toNat?.1 hindex] at h

theorem renders_interfaceCall {count : Nat} (hs : ∀ digits, s = '#' :: digits → Writes digits n)
    (hcount : TakesSlots s count) : Renders .invokeinterface [s] (.invokeInterface n count) := by
  intro offset? pos ins hins
  obtain ⟨operand, hoperand, rfl⟩ := Option.map_eq_some_iff.1 hins
  simp only [operand?, bind, Option.bind_eq_some_iff, pure, Option.some.injEq] at hoperand
  obtain ⟨index, hindex, k, hk, rfl⟩ := hoperand
  obtain rfl : count = k := Int.ofNat.inj (Int.mem_toNat?.1 hk)
  exact .inl (.interfaceCall (refers hs hindex) hcount)

theorem renders_countedCall {m count : Int} (hs : ∀ digits, s = '#' :: digits → Writes digits n)
    (hd : Writes d m) (hcount : 0 ≤ m ∧ count = m ∨ m < 0 ∧ ∃ k : Nat, count = k ∧ TakesSlots s k) :
    Renders .invokeinterface [s, d] (.invokeInterface n count) := by
  intro offset? pos ins hins
  obtain ⟨operand, hoperand, rfl⟩ := Option.map_eq_some_iff.1 hins
  simp only [operand?, bind, Option.bind_eq_some_iff, pure, Option.some.injEq] at hoperand
  obtain ⟨index, hindex, k, hk, rfl⟩ := hoperand
  have hk := Int.mem_toNat?.1 hk
  rcases hcount with ⟨-, rfl⟩ | ⟨hneg, slots, hslots, htakes⟩
  · rw [hk] at hd
    exact .inl (.countedCall (refers hs hindex) hd)
  · obtain rfl : slots = k := Int.ofNat.inj (hslots.symm.trans hk)
    exact .inr (.count (refers hs hindex) hd hneg htakes)

theorem renders_dynamicCall (hs : ∀ digits, s = '#' :: digits → Writes digits n) :
    Renders .invokedynamic [s] (.invokeDynamic n) := by
  intro offset? pos ins hins
  obtain ⟨operand, hoperand, rfl⟩ := Option.map_eq_some_iff.1 hins
  obtain ⟨index, hindex, rfl⟩ := Option.map_eq_some_iff.1 hoperand
  exact .inl (.dynamicCall (refers hs hindex))

theorem renders_element {code : UInt8} (h : elementCodes.lookup (String.ofList s) = some code ∨
      elementCodes.lookup (String.ofList s) = none ∧ ∃ n, Writes s n ∧ code = lowByte n) :
    Renders .newarray [s] (.newArray code) := by
  rintro offset? pos _ ⟨⟩
  rcases h with hword | ⟨hnone, n, hn, rfl⟩
  · exact .inl (.element (.inl hword))
  · by_cases hrange : 0 ≤ n ∧ n ≤ 255
    · -- A number from 0 to 255 is its own low byte.
      refine .inl (.element (.inr ?_))
      have hbyte : ((lowByte n).toNat : Int) = n := by
        show (((n % 256).toNat % 256 : Nat) : Int) = n
        omega
      rwa [hbyte]
    · exact .inr (.element hnone hn (by omega))

theorem renders_multiArray {dims : Int} (hs : ∀ digits, s = '#' :: digits → Writes digits n)
    (hd : Writes d dims) : Renders .multianewarray [s, d] (.multiNewArray n dims) := by
  intro offset? pos ins hins
  obtain ⟨operand, hoperand, rfl⟩ := Option.map_eq_some_iff.1 hins
  simp only [operand?, bind, Option.bind_eq_some_iff, pure, Option.some.injEq] at hoperand
  obtain ⟨index, hindex, k, hk, rfl⟩ := hoperand
  rw [Int.mem_toNat?.1 hk] at hd
  exact .inl (.multiArray (refers hs hindex) hd)

end Renders

/-! ### The instruction of a line -/

theorem eq_of_own_format (op : Opcode) :
    (op.format = .iinc → op = .iinc) ∧ (op.format = .tableSwitch → op = .tableswitch) ∧
      (op.format = .lookupSwitch → op = .lookupswitch) ∧
      (op.format = .invokeInterface → op = .invokeinterface) ∧
      (op.format = .invokeDynamic → op = .invokedynamic) ∧
      (op.format = .newArray → op = .newarray) ∧
      (op.format = .multiNewArray → op = .multianewarray) := by
  have hall : ∀ i : Fin 202, ((Opcode.mk i).format = .iinc → Opcode.mk i = .iinc) ∧
      ((Opcode.mk i).format = .tableSwitch → Opcode.mk i = .tableswitch) ∧
      ((Opcode.mk i).format = .lookupSwitch → Opcode.mk i = .lookupswitch) ∧
      ((Opcode.mk i).format = .invokeInterface → Opcode.mk i = .invokeinterface) ∧
      ((Opcode.mk i).format = .invokeDynamic → Opcode.mk i = .invokedynamic) ∧
      ((Opcode.mk i).format = .newArray → Opcode.mk i = .newarray) ∧
      ((Opcode.mk i).format = .multiNewArray → Opcode.mk i = .multianewarray) := by
    decide +kernel
  exact hall op.index

theorem emits_tableSwitch (args : List (List Char)) :
    Emits (tableSwitch args) (Belongs .tableswitch args) := by
  unfold tableSwitch
  split
  · next s word otherwise target targets =>
    split
    · exact .throw _
    · refine .bind (gives_integer s) fun low hlow => ?_
      obtain ⟨low, rfl⟩ := hlow.exists_int32
      exact emits_use (fun b => rfl) ⟨renders_table hlow, rfl⟩ rfl
  · exact .throw _

section

variable {cases : List (List Char)} {pairs : List (Int × String)}

theorem exists_keys (h : Forall₂ WritesCase cases pairs) :
    ∃ keys : List Int32, keys.map Int32.toInt = pairs.map Prod.fst := by
  induction h with
  | nil => exact ⟨[], rfl⟩
  | cons hcase _ ih =>
    obtain ⟨key, -, -, hkey⟩ := hcase
    obtain ⟨first, hfirst⟩ := hkey.exists_int32
    obtain ⟨keys, hkeys⟩ := ih
    exact ⟨first :: keys, by rw [map_cons, map_cons, hfirst, hkeys]⟩

theorem map_snd_of_cases (h : Forall₂ WritesCase cases pairs) :
    pairs.map Prod.snd =
      (cases.map fun s => (s.dropWhile (· ≠ ':')).tail).map String.ofList := by
  induction h with
  | nil => rfl
  | cons hcase _ ih =>
    obtain ⟨key, rfl, hkey, -⟩ := hcase
    have hskip : ∀ c ∈ key, decide (c ≠ ':') = true := by
      intro c hc
      simp only [decide_eq_true_eq]
      rintro rfl
      exact hkey hc
    rw [map_cons, map_cons, map_cons, ih, dropWhile_append_of_pos hskip]
    simp

end

theorem emits_lookupSwitch (args : List (List Char)) :
    Emits (lookupSwitch args) (Belongs .lookupswitch args) := by
  unfold lookupSwitch
  split
  · next word otherwise cases =>
    split
    · exact .throw _
    · refine .bind (Gives.mapM gives_switchPair cases) fun pairs hpairs => ?_
      obtain ⟨keys, hkeys⟩ := exists_keys hpairs
      have hzip : (keys.map Int32.toInt).zip (pairs.map Prod.snd) = pairs := by
        rw [hkeys]
        exact (zip_of_prod rfl rfl).symm
      have hlength : keys.length = (pairs.map Prod.snd).length := by
        rw [← length_map Int32.toInt, hkeys, length_map, length_map]
      refine emits_use (e := .lookupSwitch (String.ofList otherwise) keys (pairs.map Prod.snd))
        (fun b => ?_) ⟨renders_lookup (hzip.symm ▸ hpairs) hlength, ?_⟩ rfl
      · rw [← hkeys]
        rfl
      · exact congrArg (String.ofList otherwise :: ·) (map_snd_of_cases hpairs)
  · exact .throw _

theorem emits_interfaceCall {args : List (List Char)}
    (h : ∀ {n : Int} {count : Nat}, (∀ digits, s = '#' :: digits → Writes digits n) →
      TakesSlots s count → Renders .invokeinterface args (.invokeInterface n count)) :
    Emits (invokeInterface s none) (Belongs .invokeinterface args) := by
  unfold invokeInterface
  dsimp only [Option.filter]
  split
  · exact .bind (gives_integer _) fun _ _ => .throw _
  · next hsign =>
    refine .bind (gives_splitMethod s) ?_
    rintro ⟨owner, name, desc⟩ ⟨member, args, hs, hmember, rfl⟩
    refine .bind (gives_receiverSlots hs hmember) ?_
    rintro _ ⟨count, rfl, hcount⟩
    refine .bind (gives_intern _) fun n _ =>
      emits_emit (e := .invokeInterface n count) (fun b => rfl) ?_ rfl rfl
    exact h (fun digits h => absurd h (hsign digits)) hcount

theorem emits_countedCall {d : List Char} {m : Int} (hd : Writes d m) :
    Emits (invokeInterface s (some m)) (Belongs .invokeinterface [s, d]) := by
  by_cases hm : 0 ≤ m
  · unfold invokeInterface
    rw [show (some m).filter (fun n => decide (0 ≤ n)) = some m by simp [hm]]
    dsimp only
    split
    · next digits =>
      refine .bind (gives_integer digits) fun n hn =>
        emits_emit (e := .invokeInterface n m) (fun b => rfl) ?_ rfl rfl
      refine renders_countedCall ?_ hd (.inl ⟨hm, rfl⟩)
      rintro _ ⟨⟩
      exact hn
    · next hsign =>
      refine .bind (gives_splitMethod s) ?_
      rintro ⟨owner, name, desc⟩ -
      refine .bind (.pure (P := (m = ·)) rfl) ?_
      rintro _ rfl
      refine .bind (gives_intern _) fun n _ =>
        emits_emit (e := .invokeInterface n m) (fun b => rfl) ?_ rfl rfl
      exact renders_countedCall (fun digits h => absurd h (hsign digits)) hd (.inl ⟨hm, rfl⟩)
  · have hnone : invokeInterface s (some m) = invokeInterface s none := by
      unfold invokeInterface
      rw [show (some m).filter (fun n => decide (0 ≤ n)) = none by simpa using hm]
      rfl
    rw [hnone]
    exact emits_interfaceCall fun hs hcount =>
      renders_countedCall hs hd (.inr ⟨by omega, _, rfl, hcount⟩)

theorem gives_callSite (s : List Char) : Gives (callSite s) fun _ => True := by
  unfold callSite
  split
  · exact gives_intern _
  · exact .throw _

/-- What a line emits is faithful to it, but for a slip, and branches to the labels named there. -/
theorem emits_instruction (op : Opcode) (args : List (List Char)) :
    Emits (instruction op args) (Belongs op args) := by
  obtain ⟨hiinc, htable, hlookup, hinterface, hdynamic, harray, hmulti⟩ := eq_of_own_format op
  unfold instruction
  dsimp only
  split
  · next hformat =>
    refine emits_emit (e := .plain op) (fun b => rfl) ?_ (by rw [targets, hformat]) rfl
    rintro offset? pos _ ⟨⟩
    exact .inl .plain
  · exact .throw _
  · next hformat =>
    refine .bind (gives_integer _) fun n hn => ?_
    exact emits_emit (fun b => rfl) (renders_immediate hn) (by rw [targets, hformat]) rfl
  · next hformat =>
    refine .bind (gives_integer _) fun n hn => ?_
    exact emits_emit (fun b => rfl) (renders_immediate hn) (by rw [targets, hformat]) rfl
  · next hformat =>
    refine .bind (gives_integer _) fun n hn => ?_
    exact emits_emit (fun b => rfl) (renders_slot hn) (by rw [targets, hformat]) rfl
  · next hformat =>
    rw [hiinc hformat]
    refine .bind (gives_integer _) fun n hn => .bind (gives_integer _) fun delta hdelta => ?_
    exact emits_emit (fun b => rfl) (renders_increment hn hdelta) rfl rfl
  · exact .throw _
  · next hformat =>
    exact emits_use (fun b => rfl) ⟨renders_branch _, by rw [targets, hformat]; rfl⟩ rfl
  · next hformat =>
    exact emits_use (fun b => rfl) ⟨renders_branch _, by rw [targets, hformat]; rfl⟩ rfl
  · next hformat =>
    refine .bind (gives_constOperand op _) fun n hn => ?_
    exact emits_emit (fun b => rfl) (renders_const hn) (by rw [targets, hformat]) rfl
  · next hformat =>
    refine .bind (gives_constOperand op _) fun n hn => ?_
    exact emits_emit (fun b => rfl) (renders_const hn) (by rw [targets, hformat]) rfl
  · next hformat =>
    rw [htable hformat]
    exact emits_tableSwitch _
  · next hformat =>
    rw [hlookup hformat]
    exact emits_lookupSwitch _
  · next hformat =>
    rw [hinterface hformat]
    exact emits_interfaceCall renders_interfaceCall
  · next hformat =>
    rw [hinterface hformat]
    exact .bind (gives_integer _) fun m hm => emits_countedCall hm
  · exact .throw _
  · next s hformat =>
    rw [hdynamic hformat]
    refine .bind (gives_poolIndex (gives_callSite s)) fun n hn => ?_
    exact emits_emit (fun b => rfl) (renders_dynamicCall hn) rfl rfl
  · next s hformat =>
    rw [harray hformat]
    refine .bind (gives_elementOperand s) fun code hcode => ?_
    exact emits_emit (fun b => rfl) (renders_element hcode) rfl rfl
  · next s d hformat =>
    rw [hmulti hformat]
    refine .bind (gives_classOperand s) fun n hn => .bind (gives_integer d) fun dims hdims => ?_
    exact emits_emit (fun b => rfl) (renders_multiArray hn hdims) rfl rfl
  · exact .throw _
  · exact .throw _
  · exact .throw _

end Assembly

end Bytecode
