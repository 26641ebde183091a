import Mathlib.Algebra.Group.Int.Defs
import Mathlib.Algebra.GroupWithZero.Nat
import Bytecode.Proofs.CodePieces

/-!
The instructions that a builder emits, each as the pieces of code that it appends.

* `Emission.apply`, `Emission.instruction?`: what a builder does to emit an instruction, and which
  instruction it stands for;
* `Emission.apply_eq`: an emission that is no misuse appends the pieces of its instruction.
-/
namespace Bytecode

open Opcode

/-! ### Ranges -/

theorem fitsSigned_iff {k : Nat} {n : Int} :
    fitsSigned (k + 1) n = true ↔ -(2 ^ k : Int) ≤ n ∧ n < 2 ^ k := by
  simp [fitsSigned]

theorem fitsUnsigned_iff {k : Nat} {n : Int} : fitsUnsigned k n = true ↔ 0 ≤ n ∧ n < 2 ^ k := by
  simp [fitsUnsigned]

/-! ### Emissions -/

/-- The instructions that a builder emits. Immediate values, indices and counts are as the builder
takes them, in range or not; the matches of switches are numbers of 32 bits. -/
inductive Emission where
  | plain (op : Opcode)
  | immediate (op : Opcode) (value : Int)
  | slot (op : Opcode) (index : Int)
  | increment (index delta : Int)
  | const (op : Opcode) (index : Int)
  | branch (op : Opcode) (label : String)
  | tableSwitch (low : Int32) (otherwise : String) (targets : List String)
  | lookupSwitch (otherwise : String) (keys : List Int32) (targets : List String)
  | invokeInterface (index count : Int)
  | invokeDynamic (index : Int)
  | newArray (code : UInt8)
  | multiNewArray (index dims : Int)
  deriving DecidableEq

namespace Emission

/-- The builder after an emission. -/
def apply (b : CodeBuilder) : Emission → CodeBuilder
  | .plain op => b.emit op
  | .immediate op value => b.immediate op value
  | .slot op index => b.slot op index
  | .increment index delta => b.increment index delta
  | .const op index => b.const op index
  | .branch op label => b.branch op label
  | .tableSwitch low otherwise targets => b.tableSwitch low.toInt otherwise targets
  | .lookupSwitch otherwise keys targets =>
    b.lookupSwitch otherwise (keys.map Int32.toInt) targets
  | .invokeInterface index count => b.invokeInterface index count
  | .invokeDynamic index => b.invokeDynamic index
  | .newArray code => b.newArray code
  | .multiNewArray index dims => b.multiNewArray index dims

/-- The opcode of the instruction. -/
def opcode : Emission → Opcode
  | .plain op | .immediate op _ | .slot op _ | .branch op _ => op
  | .const op index => if op = .ldc ∧ 255 < index then .ldcW else op
  | .increment _ _ => .iinc
  | .tableSwitch _ _ _ => .tableswitch
  | .lookupSwitch _ _ _ => .lookupswitch
  | .invokeInterface _ _ => .invokeinterface
  | .invokeDynamic _ => .invokedynamic
  | .newArray _ => .newarray
  | .multiNewArray _ _ => .multianewarray

/-- Do the operands need the widening mark? -/
def isWide : Emission → Bool
  | .slot _ index => 255 < index
  | .increment index delta => 255 < index || delta < -128 || 127 < delta
  | _ => false

/-- The labels that the instruction branches to. -/
def labels : Emission → List String
  | .branch _ label => [label]
  | .tableSwitch _ otherwise targets | .lookupSwitch otherwise _ targets => otherwise :: targets
  | _ => []

/-- The operands of the instruction, by the offsets of the labels. -/
def operand? (offset? : String → Option Nat) : Emission → Option Operand
  | .plain _ => some .none
  | .immediate _ value => some (.immediate value)
  | .slot _ index => index.toNat?.map .slot
  | .increment index delta => index.toNat?.map (.increment · delta)
  | .const _ index => index.toNat?.map .const
  | .branch _ label => (offset? label).map fun pos : Nat => .target pos
  | .tableSwitch low otherwise targets => do
    let first ← offset? otherwise
    let rest ← targets.mapM offset?
    return .table first low.toInt (rest.map Int.ofNat)
  | .lookupSwitch otherwise keys targets => do
    let first ← offset? otherwise
    let rest ← targets.mapM offset?
    return .lookup first ((keys.map Int32.toInt).zip (rest.map Int.ofNat))
  | .invokeInterface index count => do
    return .interfaceCall (← index.toNat?) (← count.toNat?)
  | .invokeDynamic index => index.toNat?.map .dynamicCall
  | .newArray code => some (.element code)
  | .multiNewArray index dims => do
    return .multiArray (← index.toNat?) (← dims.toNat?)

/-- The instruction, at an offset and by the offsets of the labels. -/
def instruction? (offset? : String → Option Nat) (pos : Nat) (e : Emission) : Option Instruction :=
  (e.operand? offset?).map fun operand => ⟨pos, e.opcode, e.isWide, operand⟩

/-! ### The pieces of an instruction -/

/-- The pieces that an instruction at an offset consists of. -/
def pieces (pos : Nat) : Emission → List Piece
  | .plain op => [.bytes [op.byte]]
  | .immediate op value =>
    [.bytes (op.byte :: if op = .bipush then [lowByte value] else bytes2 value)]
  | .slot op index =>
    [.bytes (if 255 < index then wide.byte :: op.byte :: bytes2 index
      else [op.byte, lowByte index])]
  | .increment index delta =>
    [.bytes (if 255 < index ∨ delta < -128 ∨ 127 < delta then
      wide.byte :: iinc.byte :: (bytes2 index ++ bytes2 delta)
      else [iinc.byte, lowByte index, lowByte delta])]
  | .const op index =>
    [.bytes (if op = .ldc then
      if 255 < index then ldcW.byte :: bytes2 index else [op.byte, lowByte index]
      else op.byte :: bytes2 index)]
  | .branch op label => [.bytes [op.byte], .hole pos label (op.format = .branchWide)]
  | .tableSwitch low otherwise targets =>
    .bytes (tableswitch.byte :: List.replicate (switchPadding pos) 0) ::
      .hole pos otherwise true ::
      .bytes (bytes4 low.toInt ++ bytes4 (wrap32 (low.toInt + (targets.length - 1 : Nat)))) ::
      targets.map (.hole pos · true)
  | .lookupSwitch otherwise keys targets =>
    .bytes (lookupswitch.byte :: List.replicate (switchPadding pos) 0) ::
      .hole pos otherwise true ::
      .bytes (bytes4 keys.length) ::
      (keys.zip targets).flatMap fun (key, label) =>
        [.bytes (bytes4 key.toInt), .hole pos label true]
  | .invokeInterface index count =>
    [.bytes (invokeinterface.byte :: (bytes2 index ++ [lowByte count, 0]))]
  | .invokeDynamic index => [.bytes (invokedynamic.byte :: (bytes2 index ++ [0, 0]))]
  | .newArray code => [.bytes [newarray.byte, code]]
  | .multiNewArray index dims =>
    [.bytes (multianewarray.byte :: (bytes2 index ++ [lowByte dims]))]

/-- Is the emission no misuse of the builder? -/
def IsEncodable : Emission → Prop
  | .plain op => op.format = .none
  | .immediate op value =>
    op = .bipush ∧ fitsSigned 8 value = true ∨ op = .sipush ∧ fitsSigned 16 value = true
  | .slot op index => op.format = .slot ∧ fitsUnsigned 16 index = true
  | .increment index delta => fitsUnsigned 16 index = true ∧ fitsSigned 16 delta = true
  | .const op index => (op = .ldc ∨ op.format = .const16) ∧ fitsPool index = true
  | .branch op _ => op.format = .branch ∨ op.format = .branchWide
  | .tableSwitch _ _ targets => targets ≠ []
  | .lookupSwitch _ keys targets =>
    keys.length = targets.length ∧
      CodeBuilder.strictlyAscending (keys.map Int32.toInt) = true
  | .invokeInterface index count => fitsPool index = true ∧ fitsUnsigned 8 count = true
  | .invokeDynamic index => fitsPool index = true
  | .newArray _ => True
  | .multiNewArray index dims => fitsPool index = true ∧ fitsUnsigned 8 dims = true

end Emission

namespace CodeBuilder

theorem fault_fail (b : CodeBuilder) (e : BuilderError) : (b.fail e).fault ≠ none := by
  cases hfault : b.fault <;> simp [fail, hfault]

theorem checked_eq {b next : CodeBuilder} {op : Opcode} {formats : List Format}
    (h : (b.checked op formats next).fault = none) :
    op.format ∈ formats ∧ b.checked op formats next = next := by
  unfold checked at h ⊢
  split at h
  · next hformat => exact ⟨hformat, if_pos hformat⟩
  · exact absurd h (fault_fail b _)

theorem pad_raw (b : CodeBuilder) (byte : UInt8) :
    (b.raw [byte]).pad = b.add [.bytes (byte :: List.replicate (switchPadding b.length) 0)] := by
  have hlength : (b.raw [byte]).length = b.length + 1 := by simp [length, raw]
  rw [pad, hlength]
  show { b with code := b.code ++ [byte].toArray ++ _ } = { b with code := b.code ++ _ }
  congr 1
  apply Array.ext'
  simp [switchPadding]

end CodeBuilder

theorem Opcode.eq_of_format (op : Opcode) :
    (op.format = .byte → op = .bipush) ∧ (op.format = .short → op = .sipush) ∧
      (op.format = .const8 → op = .ldc) := by
  have hall : ∀ i : Fin 202, ((mk i).format = .byte → mk i = .bipush) ∧
      ((mk i).format = .short → mk i = .sipush) ∧
      ((mk i).format = .const8 → mk i = .ldc) := by
    decide +kernel
  exact hall op.index

namespace Emission

open CodeBuilder

/-- The emission appends the pieces of its instruction and is no misuse. -/
def Appends (b : CodeBuilder) (e : Emission) : Prop :=
  e.IsEncodable ∧ e.apply b = b.add (e.pieces b.length)

variable {b : CodeBuilder}

variable {op : Opcode} {index : Int} {low : Int32} {otherwise : String} {targets : List String}

theorem appends_immediate {value : Int} (h : ((immediate op value).apply b).fault = none) :
    (immediate op value).Appends b := by
  obtain ⟨hformat, heq⟩ := checked_eq h
  have hop : op = .bipush ∨ op = .sipush := by
    simp only [List.mem_cons, List.not_mem_nil, or_false] at hformat
    exact hformat.imp op.eq_of_format.1 op.eq_of_format.2.1
  rw [show (immediate op value).apply b = _ from heq] at h
  rcases hop with rfl | rfl
  · rw [if_pos rfl] at h heq
    split at h
    · next hfits => exact ⟨.inl ⟨rfl, hfits⟩, heq.trans (if_pos hfits)⟩
    · exact absurd h (fault_fail b _)
  · rw [if_neg (by decide)] at h heq
    split at h
    · next hfits => exact ⟨.inr ⟨rfl, hfits⟩, heq.trans (if_pos hfits)⟩
    · exact absurd h (fault_fail b _)

theorem appends_slot (h : ((slot op index).apply b).fault = none) : (slot op index).Appends b := by
  obtain ⟨hformat, heq⟩ := checked_eq h
  rw [List.mem_singleton] at hformat
  rw [show (slot op index).apply b = _ from heq] at h
  split at h
  · next hbyte =>
    obtain ⟨hge, hlt⟩ := fitsUnsigned_iff.1 hbyte
    refine ⟨⟨hformat, fitsUnsigned_iff.2 ⟨hge, by omega⟩⟩, ?_⟩
    rw [pieces, if_neg (by omega)]
    exact heq.trans (if_pos hbyte)
  · next hbyte =>
    split at h
    · next hshort =>
      have hbig : 255 < index := by
        rw [fitsUnsigned_iff] at hbyte hshort
        omega
      refine ⟨⟨hformat, hshort⟩, ?_⟩
      rw [pieces, if_pos hbig]
      exact heq.trans ((if_neg hbyte).trans (if_pos hshort))
    · exact absurd h (fault_fail b _)

theorem appends_increment {delta : Int} (h : ((increment index delta).apply b).fault = none) :
    (increment index delta).Appends b := by
  simp only [apply, CodeBuilder.increment, Bool.and_eq_true] at h
  simp only [Appends, IsEncodable, apply, CodeBuilder.increment, pieces, Bool.and_eq_true]
  split at h
  · next hbytes =>
    obtain ⟨hge, hlt⟩ := fitsUnsigned_iff.1 hbytes.1
    obtain ⟨hlow, hhigh⟩ := fitsSigned_iff.1 hbytes.2
    refine ⟨⟨fitsUnsigned_iff.2 ⟨hge, by omega⟩, fitsSigned_iff.2 ⟨by omega, by omega⟩⟩, ?_⟩
    rw [if_pos hbytes, if_neg (by omega)]
    rfl
  · next hbytes =>
    split at h
    · next hshorts =>
      have hbig : 255 < index ∨ delta < -128 ∨ 127 < delta := by
        rw [fitsUnsigned_iff, fitsSigned_iff] at hbytes hshorts
        omega
      refine ⟨hshorts, ?_⟩
      rw [if_neg hbytes, if_pos hshorts, if_pos hbig]
      rfl
    · exact absurd h (fault_fail b _)

theorem apply_const (hop : op = .ldc ∨ op.format = .const16) : (const op index).apply b =
    if fitsPool index then b.add ((const op index).pieces b.length)
    else b.fail (.poolRange op index) := by
  have hformat : op.format ∈ [Format.const8, .const16] := by
    rcases hop with rfl | hformat
    · decide
    · simp [hformat]
  rw [apply, CodeBuilder.const, CodeBuilder.checked, if_pos hformat]
  cases fitsPool index with
  | false => rfl
  | true =>
    rw [if_neg (by simp), if_pos rfl, pieces]
    by_cases hldc : op = .ldc
    · rw [if_pos hldc, if_pos hldc]
      by_cases hbig : 255 < index
      · rw [if_neg (by omega), if_pos hbig]
        rfl
      · rw [if_pos (by omega), if_neg hbig]
        rfl
    · rw [if_neg hldc, if_neg hldc]
      rfl

theorem appends_const (h : ((const op index).apply b).fault = none) :
    (const op index).Appends b := by
  obtain ⟨hformat, -⟩ := checked_eq h
  have hop : op = .ldc ∨ op.format = .const16 := by
    simp only [List.mem_cons, List.not_mem_nil, or_false] at hformat
    exact hformat.imp_left op.eq_of_format.2.2
  rw [apply_const hop] at h
  split at h
  · next hpool => exact ⟨⟨hop, hpool⟩, (apply_const hop).trans (if_pos hpool)⟩
  · exact absurd h (fault_fail b _)

theorem apply_tableSwitch (hne : targets ≠ []) : (tableSwitch low otherwise targets).apply b =
      b.add ((tableSwitch low otherwise targets).pieces b.length) := by
  rw [apply, CodeBuilder.tableSwitch, if_neg (by simpa using hne), pad_raw]
  simp only [hole_eq_add, raw_eq_add, foldl_add, add_add]
  rw [pieces, ← List.map_eq_flatMap]
  rfl

theorem appends_tableSwitch (h : ((tableSwitch low otherwise targets).apply b).fault = none) :
    (tableSwitch low otherwise targets).Appends b := by
  have hne : targets ≠ [] := by
    rintro rfl
    exact fault_fail b _ h
  exact ⟨hne, apply_tableSwitch hne⟩

theorem appends_lookupSwitch {keys : List Int32}
    (h : ((lookupSwitch otherwise keys targets).apply b).fault = none) :
    (lookupSwitch otherwise keys targets).Appends b := by
  simp only [apply, CodeBuilder.lookupSwitch, List.length_map] at h
  split at h
  · exact absurd h (fault_fail b _)
  · next hlength =>
    split at h
    · exact absurd h (fault_fail b _)
    · next hkeys =>
      refine ⟨⟨by simpa using hlength, by simpa using hkeys⟩, ?_⟩
      simp only [apply, CodeBuilder.lookupSwitch, List.length_map]
      rw [if_neg hlength, if_neg hkeys, pad_raw]
      simp only [hole_eq_add, raw_eq_add, foldl_add, add_add, List.zip_map_left, List.flatMap_map]
      rfl

/-- An emission that leaves the builder without a misuse appends the pieces of its instruction. -/
theorem apply_eq {e : Emission} (h : (e.apply b).fault = none) : e.Appends b := by
  cases e with
  | plain op =>
    obtain ⟨hformat, heq⟩ := checked_eq h
    exact ⟨List.mem_singleton.1 hformat, heq⟩
  | immediate op value => exact appends_immediate h
  | slot op index => exact appends_slot h
  | increment index delta => exact appends_increment h
  | const op index => exact appends_const h
  | branch op label =>
    obtain ⟨hformat, heq⟩ := checked_eq h
    exact ⟨by simpa [IsEncodable] using hformat, heq⟩
  | tableSwitch low otherwise targets => exact appends_tableSwitch h
  | lookupSwitch otherwise keys targets => exact appends_lookupSwitch h
  | invokeInterface index count =>
    simp only [apply, CodeBuilder.invokeInterface] at h
    split at h
    · next hfits => exact ⟨Bool.and_eq_true_iff.1 hfits, if_pos hfits⟩
    · exact absurd h (fault_fail b _)
  | invokeDynamic index =>
    simp only [apply, CodeBuilder.invokeDynamic] at h
    split at h
    · next hfits => exact ⟨hfits, if_pos hfits⟩
    · exact absurd h (fault_fail b _)
  | newArray code => exact ⟨trivial, rfl⟩
  | multiNewArray index dims =>
    simp only [apply, CodeBuilder.multiNewArray] at h
    split at h
    · next hfits => exact ⟨Bool.and_eq_true_iff.1 hfits, if_pos hfits⟩
    · exact absurd h (fault_fail b _)

end Emission

end Bytecode
