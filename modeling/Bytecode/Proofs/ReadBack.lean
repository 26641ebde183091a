import Bytecode.Instruction.Decode
import Bytecode.Proofs.Emissions

/-!
Reading back what a builder emits: the numbers in its bytes, and from them each instruction.

Main statement: `Emission.readsBack`, an instruction is read back from the bytes of its pieces,
whatever follows.
-/
namespace Bytecode

open List Opcode

/-! ### Numbers in bytes -/

theorem toNat_lowByte (n : Int) : ((lowByte n).toNat : Int) = n % 256 := by
  have hmod : (n % 256).toNat < 256 := by omega
  rw [lowByte, Nat.toUInt8, UInt8.toNat_ofNat', Nat.mod_eq_of_lt hmod]
  omega

theorem word2_lowByte (n : Int) : (word2 (lowByte (n / 256)) (lowByte n) : Int) = n % 65536 := by
  have hhigh := toNat_lowByte (n / 256)
  have hlow := toNat_lowByte n
  rw [word2]
  omega

theorem word4_lowByte (n : Int) :
    (word4 (lowByte (n / 16777216)) (lowByte (n / 65536)) (lowByte (n / 256)) (lowByte n) : Int) =
      n % 4294967296 := by
  have hhigh := word2_lowByte (n / 65536)
  have hlow := word2_lowByte n
  rw [show n / 65536 / 256 = n / 16777216 by omega] at hhigh
  rw [word4]
  omega

variable {n : Int} {op : Opcode}

theorem signed_eq {k m : Nat} (h : fitsSigned (k + 1) n = true) (hm : (m : Int) = n % 2 ^ (k + 1)) :
    signed (k + 1) m = n := by
  obtain ⟨hge, hlt⟩ := fitsSigned_iff.1 h
  have hpow : (2 ^ (k + 1) : Int) = 2 ^ k + 2 ^ k := by omega
  have hroom : ((2 ^ k : Nat) : Int) = 2 ^ k := by simp
  show (if m < 2 ^ k then (m : Int) else m - ((2 ^ (k + 1) : Nat) : Int)) = n
  by_cases hneg : n < 0
  · -- A negative number is met again one period later.
    have hmod : n % 2 ^ (k + 1) = n + 2 ^ (k + 1) := by
      rw [← Int.add_emod_right, Int.emod_eq_of_lt (by omega) (by omega)]
    rw [if_neg (by omega)]
    push_cast
    omega
  · have hmod : n % 2 ^ (k + 1) = n := Int.emod_eq_of_lt (by omega) (by omega)
    rw [if_pos (by omega)]
    omega

theorem fitsPool_iff : fitsPool n = true ↔ 0 < n ∧ n ≤ 65535 := by
  simp [fitsPool]

theorem wrap32_eq (h : fitsSigned 32 n = true) : wrap32 n = n := by
  obtain ⟨hge, hlt⟩ := fitsSigned_iff.1 h
  rw [wrap32]
  omega

theorem fitsSigned_toInt (n : Int32) : fitsSigned 32 n.toInt = true :=
  fitsSigned_iff.2 ⟨n.le_toInt, n.toInt_lt⟩

theorem fitsSigned_sub {a b : Nat} (ha : a < 2 ^ 31) (hb : b < 2 ^ 31) :
    fitsSigned 32 ((a : Int) - b) = true :=
  fitsSigned_iff.2 ⟨by omega, by omega⟩

theorem length_flatMap_of_length {α : Type} (f : α → List UInt8) (k : Nat)
    (h : ∀ a, (f a).length = k) (l : List α) : (l.flatMap f).length = l.length * k := by
  induction l with
  | nil => exact (Nat.zero_mul k).symm
  | cons a l ih =>
    rw [flatMap_cons, length_append, h, ih, length_cons, Nat.succ_mul, Nat.add_comm]

theorem length_flatMap_bytes4 (words : List Int) :
    (words.flatMap bytes4).length = words.length * 4 :=
  length_flatMap_of_length bytes4 4 (fun _ => rfl) words

theorem readWords?_bytes4 {l : List Int} (h : ∀ n ∈ l, fitsSigned 32 n = true)
    (rest : List UInt8) : readWords? l.length (l.flatMap bytes4 ++ rest) = some l := by
  induction l with
  | nil => rfl
  | cons n l ih =>
    obtain ⟨hn, hl⟩ := forall_mem_cons.1 h
    rw [flatMap_cons, append_assoc]
    show (readWords? l.length (l.flatMap bytes4 ++ rest)).map _ = _
    rw [ih hl, signed_eq hn (word4_lowByte n)]
    rfl

theorem readPairs?_bytes4 {l : List (Int × Int)}
    (h : ∀ pair ∈ l, fitsSigned 32 pair.1 = true ∧ fitsSigned 32 pair.2 = true)
    (rest : List UInt8) :
    readPairs? l.length (l.flatMap (fun pair => bytes4 pair.1 ++ bytes4 pair.2) ++ rest) =
      some l := by
  induction l with
  | nil => rfl
  | cons pair l ih =>
    obtain ⟨⟨hkey, hoffset⟩, hl⟩ := forall_mem_cons.1 h
    rw [flatMap_cons, append_assoc]
    show (readPairs? l.length (l.flatMap _ ++ rest)).map _ = _
    rw [ih hl, signed_eq hkey (word4_lowByte pair.1), signed_eq hoffset (word4_lowByte pair.2)]
    rfl

theorem word2_natCast {n : Nat} (h : n < 65536) :
    word2 (lowByte ((n : Int) / 256)) (lowByte n) = n := by
  have hword := word2_lowByte n
  omega

theorem toNat_lowByte_natCast {n : Nat} (h : n < 256) : (lowByte n).toNat = n := by
  have hbyte := toNat_lowByte n
  omega

/-! ### Reading one instruction -/

theorem Opcode.ofByte?_byte (op : Opcode) : ofByte? op.byte = some op := by
  have hlt := op.index.isLt
  have htoNat : op.byte.toNat = op.index.val := by
    rw [byte, Nat.toUInt8, UInt8.toNat_ofNat', Nat.mod_eq_of_lt (by omega)]
  rw [ofByte?, dif_pos (by omega)]
  congr 2
  exact Fin.ext htoNat

theorem decodeAt_byte (h : op.format ≠ .wide) (pos : Nat) (rest : List UInt8) :
    decodeAt pos (op.byte :: rest) =
      (decodeOperand pos op.format rest).map fun operand => ⟨pos, op, false, operand⟩ := by
  rw [decodeAt, ofByte?_byte]
  exact if_neg h

theorem decodeAt_wide (op : Opcode) (pos : Nat) (rest : List UInt8) :
    decodeAt pos (wide.byte :: op.byte :: rest) = decodeWide pos (op.byte :: rest) := by
  rw [decodeAt, ofByte?_byte]
  rfl

namespace Emission

/-- The instruction of an emission is what is read from some bytes, whatever follows them. -/
def ReadsBack (offset? : String → Option Nat) (pos : Nat) (e : Emission)
    (bytes : List UInt8) : Prop :=
  ∃ ins, e.instruction? offset? pos = some ins ∧ ins.size = bytes.length ∧
    ∀ rest, decodeAt pos (bytes ++ rest) = .ok ins

variable {offset? : String → Option Nat} {pos : Nat} {e : Emission} {operand : Operand}

variable {op : Opcode} {index : Int} {label otherwise : String} {place : String → Nat}
  {targets : List String}

theorem readsBack_of_operand {format : Format} {l : List UInt8} (hop : e.opcode = op)
    (hformat : op.format = format) (hwide : e.isWide = false)
    (hoperand : e.operand? offset? = some operand)
    (hsize : (Instruction.mk pos op false operand).operandSize = l.length)
    (hread : ∀ rest, decodeOperand pos format (l ++ rest) = .ok operand) :
    e.ReadsBack offset? pos (op.byte :: l) := by
  -- The widening mark itself has no operands that can be read.
  have hmark : op.format ≠ .wide := by
    intro hmark
    rw [hformat] at hmark
    subst hmark
    cases hread []
  refine ⟨⟨pos, op, false, operand⟩, ?_, ?_, fun rest => ?_⟩
  · rw [instruction?, hoperand, hop, hwide]
    rfl
  · show 1 + _ = _
    rw [hsize, length_cons, Nat.add_comm]
  · rw [cons_append, decodeAt_byte hmark, hformat, hread]
    rfl

/-! ### Each instruction -/

theorem readsBack_immediate {value : Int} (he : (immediate op value).IsEncodable) :
    (immediate op value).ReadsBack offset? pos
      (op.byte :: if op = .bipush then [lowByte value] else bytes2 value) := by
  rcases he with ⟨rfl, hfits⟩ | ⟨rfl, hfits⟩
  · refine readsBack_of_operand rfl rfl rfl rfl rfl fun rest => ?_
    show Except.ok (Operand.immediate (signed 8 (lowByte value).toNat)) = _
    rw [signed_eq hfits (toNat_lowByte value)]
  · refine readsBack_of_operand rfl rfl rfl rfl rfl fun rest => ?_
    show Except.ok (Operand.immediate (signed 16 (word2 _ _))) = _
    rw [signed_eq hfits (word2_lowByte value)]

theorem readsBack_slot (he : (slot op index).IsEncodable) :
    (slot op index).ReadsBack offset? pos
      (if 255 < index then wide.byte :: op.byte :: bytes2 index
        else [op.byte, lowByte index]) := by
  obtain ⟨hformat, hfits⟩ := he
  obtain ⟨hge, hlt⟩ := fitsUnsigned_iff.1 hfits
  obtain ⟨n, rfl⟩ := Int.eq_ofNat_of_zero_le hge
  split
  · next hbig =>
    refine ⟨⟨pos, op, true, .slot n⟩, ?_, rfl, fun rest => ?_⟩
    · show some (Instruction.mk pos op (decide (255 < (n : Int))) (.slot n)) = _
      rw [decide_eq_true hbig]
    · show decodeAt pos (wide.byte :: op.byte :: _ :: _ :: rest) = _
      rw [decodeAt_wide, decodeWide, ofByte?_byte]
      simp only [hformat]
      rw [word2_natCast (by omega)]
  · next hsmall =>
    refine readsBack_of_operand rfl hformat (decide_eq_false hsmall) rfl rfl fun rest => ?_
    show Except.ok (Operand.slot (lowByte n).toNat) = _
    rw [toNat_lowByte_natCast (by omega)]

theorem readsBack_increment {delta : Int} (he : (increment index delta).IsEncodable) :
    (increment index delta).ReadsBack offset? pos
      (if 255 < index ∨ delta < -128 ∨ 127 < delta then
        wide.byte :: iinc.byte :: (bytes2 index ++ bytes2 delta)
        else [iinc.byte, lowByte index, lowByte delta]) := by
  obtain ⟨hindex, hdelta⟩ := he
  obtain ⟨hge, hlt⟩ := fitsUnsigned_iff.1 hindex
  obtain ⟨n, rfl⟩ := Int.eq_ofNat_of_zero_le hge
  have hwide : (increment n delta).isWide =
      decide (255 < (n : Int) ∨ delta < -128 ∨ 127 < delta) := by
    simp [isWide, Bool.or_assoc]
  split
  · next hbig =>
    refine ⟨⟨pos, .iinc, true, .increment n delta⟩, ?_, rfl, fun rest => ?_⟩
    · rw [instruction?, hwide, decide_eq_true hbig]
      rfl
    · show decodeAt pos (wide.byte :: iinc.byte :: _ :: _ :: _ :: _ :: rest) = _
      rw [decodeAt_wide, decodeWide, ofByte?_byte]
      show Except.ok (Instruction.mk pos .iinc true
        (.increment (word2 _ _) (signed 16 (word2 _ _)))) = _
      rw [word2_natCast (by omega), signed_eq hdelta (word2_lowByte delta)]
  · next hsmall =>
    have hbyte : fitsSigned 8 delta = true := fitsSigned_iff.2 ⟨by omega, by omega⟩
    refine readsBack_of_operand rfl rfl (hwide.trans (decide_eq_false hsmall)) rfl rfl
      fun rest => ?_
    show Except.ok (Operand.increment (lowByte n).toNat (signed 8 (lowByte delta).toNat)) = _
    rw [toNat_lowByte_natCast (by omega), signed_eq hbyte (toNat_lowByte delta)]

theorem readsBack_const (he : (const op index).IsEncodable) :
    (const op index).ReadsBack offset? pos
      (if op = .ldc then
        if 255 < index then ldcW.byte :: bytes2 index else [op.byte, lowByte index]
        else op.byte :: bytes2 index) := by
  obtain ⟨hop, hpool⟩ := he
  obtain ⟨hge, hlt⟩ := fitsPool_iff.1 hpool
  obtain ⟨n, rfl⟩ := Int.eq_ofNat_of_zero_le (Int.le_of_lt hge)
  have hread (rest : List UInt8) :
      decodeOperand pos .const16 (bytes2 n ++ rest) = .ok (.const n) := by
    show Except.ok (Operand.const (word2 _ _)) = _
    rw [word2_natCast (by omega)]
  by_cases hldc : op = .ldc
  · subst hldc
    rw [if_pos rfl]
    split
    · next hbig =>
      exact readsBack_of_operand (if_pos ⟨rfl, hbig⟩) rfl rfl rfl rfl hread
    · next hsmall =>
      refine readsBack_of_operand (if_neg fun h => hsmall h.2) rfl rfl rfl rfl fun rest => ?_
      show Except.ok (Operand.const (lowByte n).toNat) = _
      rw [toNat_lowByte_natCast (by omega)]
  · have hformat : op.format = .const16 := hop.resolve_left hldc
    rw [if_neg hldc]
    refine readsBack_of_operand (if_neg fun h => hldc h.1) hformat rfl rfl ?_ hread
    show (if op.format = .const8 then 1 else 2) = 2
    rw [hformat]
    rfl

theorem readsBack_invokeInterface {count : Int} (he : (invokeInterface index count).IsEncodable) :
    (invokeInterface index count).ReadsBack offset? pos
      (invokeinterface.byte :: (bytes2 index ++ [lowByte count, 0])) := by
  obtain ⟨hpool, hcount⟩ := he
  obtain ⟨hpos, hle⟩ := fitsPool_iff.1 hpool
  obtain ⟨hge, hlt⟩ := fitsUnsigned_iff.1 hcount
  obtain ⟨n, rfl⟩ := Int.eq_ofNat_of_zero_le (Int.le_of_lt hpos)
  obtain ⟨m, rfl⟩ := Int.eq_ofNat_of_zero_le hge
  refine readsBack_of_operand rfl rfl rfl rfl rfl fun rest => ?_
  show Except.ok (Operand.interfaceCall (word2 _ _) (lowByte m).toNat) = _
  rw [word2_natCast (by omega), toNat_lowByte_natCast (by omega)]

theorem readsBack_invokeDynamic (he : (invokeDynamic index).IsEncodable) :
    (invokeDynamic index).ReadsBack offset? pos
      (invokedynamic.byte :: (bytes2 index ++ [0, 0])) := by
  obtain ⟨hpos, hle⟩ := fitsPool_iff.1 he
  obtain ⟨n, rfl⟩ := Int.eq_ofNat_of_zero_le (Int.le_of_lt hpos)
  have hformat : invokedynamic.format = .invokeDynamic := rfl
  have hzero : word2 0 0 = 0 := by decide
  refine readsBack_of_operand rfl hformat rfl rfl rfl fun rest => ?_
  simp only [bytes2, cons_append, nil_append, decodeOperand, hzero, if_true]
  rw [word2_natCast (by omega)]

theorem readsBack_multiNewArray {dims : Int} (he : (multiNewArray index dims).IsEncodable) :
    (multiNewArray index dims).ReadsBack offset? pos
      (multianewarray.byte :: (bytes2 index ++ [lowByte dims])) := by
  obtain ⟨hpool, hdims⟩ := he
  obtain ⟨hpos, hle⟩ := fitsPool_iff.1 hpool
  obtain ⟨hge, hlt⟩ := fitsUnsigned_iff.1 hdims
  obtain ⟨n, rfl⟩ := Int.eq_ofNat_of_zero_le (Int.le_of_lt hpos)
  obtain ⟨m, rfl⟩ := Int.eq_ofNat_of_zero_le hge
  refine readsBack_of_operand rfl rfl rfl rfl rfl fun rest => ?_
  show Except.ok (Operand.multiArray (word2 _ _) (lowByte m).toNat) = _
  rw [word2_natCast (by omega), toNat_lowByte_natCast (by omega)]

/-! ### Branches -/

theorem pos_add_distance (target : Nat) : (pos : Int) + ((target : Int) - pos) = target := by
  omega

theorem readsBack_branch {target : Nat} (he : (branch op label).IsEncodable)
    (htarget : offset? label = some target)
    (hnear : op.format = .branch → fitsSigned 16 ((target : Int) - pos) = true)
    (hfar : fitsSigned 32 ((target : Int) - pos) = true) :
    (branch op label).ReadsBack offset? pos
      (op.byte :: if op.format = .branchWide then bytes4 ((target : Int) - pos)
        else bytes2 ((target : Int) - pos)) := by
  have hoperand : (branch op label).operand? offset? = some (.target target) := by
    rw [operand?, htarget]
    rfl
  rcases he with hformat | hformat
  · rw [if_neg (by simp [hformat])]
    refine readsBack_of_operand rfl hformat rfl hoperand ?_ fun rest => ?_
    · show (if op.format = .branchWide then 4 else 2) = 2
      rw [hformat]
      rfl
    · show Except.ok (Operand.target (pos + signed 16 (word2 _ _))) = _
      rw [signed_eq (hnear hformat) (word2_lowByte _), pos_add_distance]
  · rw [if_pos hformat]
    refine readsBack_of_operand rfl hformat rfl hoperand ?_ fun rest => ?_
    · show (if op.format = .branchWide then 4 else 2) = 4
      rw [hformat]
      rfl
    · show Except.ok (Operand.target (pos + signed 32 (word4 _ _ _ _))) = _
      rw [signed_eq hfar (word4_lowByte _), pos_add_distance]

theorem read_padded {words : List Int} (h : ∀ n ∈ words, fitsSigned 32 n = true)
    (rest : List UInt8) :
    readWords? words.length ((List.replicate (switchPadding pos) 0 ++
        (words.flatMap bytes4 ++ rest)).drop (switchPadding pos)) = some words ∧
      (List.replicate (switchPadding pos) 0 ++ (words.flatMap bytes4 ++ rest)).drop
        (switchPadding pos + words.length * 4) = rest := by
  refine ⟨?_, ?_⟩
  · rw [drop_left' length_replicate, readWords?_bytes4 h]
  · rw [← drop_drop, drop_left' length_replicate, drop_left' (length_flatMap_bytes4 words)]

theorem decodeOperand_table {first low : Int} {offsets : List Int} (hne : offsets ≠ [])
    (hfirst : fitsSigned 32 first = true) (hlow : fitsSigned 32 low = true)
    (hhigh : fitsSigned 32 (low + (offsets.length - 1 : Nat)) = true)
    (hoffsets : ∀ n ∈ offsets, fitsSigned 32 n = true) (rest : List UInt8) :
    decodeOperand pos .tableSwitch (List.replicate (switchPadding pos) 0 ++
        ([first, low, low + (offsets.length - 1 : Nat)].flatMap bytes4 ++
          (offsets.flatMap bytes4 ++ rest))) =
      .ok (.table (pos + first) low (offsets.map (pos + ·))) := by
  have hpos : 0 < offsets.length := length_pos_iff.2 hne
  have hhead : ∀ n ∈ [first, low, low + (offsets.length - 1 : Nat)], fitsSigned 32 n = true := by
    simp only [mem_cons, not_mem_nil, or_false]
    rintro n (rfl | rfl | rfl)
    · exact hfirst
    · exact hlow
    · exact hhigh
  obtain ⟨hwords, hdrop⟩ := @read_padded pos _ hhead (offsets.flatMap bytes4 ++ rest)
  have hcount : (low + (offsets.length - 1 : Nat) - low + 1).toNat = offsets.length := by omega
  rw [decodeOperand, show readWords? 3 _ = _ from hwords]
  simp only
  rw [if_neg (by omega), hcount, show List.drop (switchPadding pos + 12) _ = _ from hdrop,
    readWords?_bytes4 hoffsets]

theorem decodeOperand_lookup {first : Int} {pairs : List (Int × Int)}
    (hfirst : fitsSigned 32 first = true) (hcount : pairs.length < 2 ^ 31)
    (hkeys : ascending (pairs.map Prod.fst) = true)
    (hpairs : ∀ pair ∈ pairs, fitsSigned 32 pair.1 = true ∧ fitsSigned 32 pair.2 = true)
    (rest : List UInt8) :
    decodeOperand pos .lookupSwitch (List.replicate (switchPadding pos) 0 ++
        ([first, (pairs.length : Int)].flatMap bytes4 ++
          (pairs.flatMap (fun pair => bytes4 pair.1 ++ bytes4 pair.2) ++ rest))) =
      .ok (.lookup (pos + first) (pairs.map fun (key, offset) => (key, pos + offset))) := by
  have hhead : ∀ n ∈ [first, (pairs.length : Int)], fitsSigned 32 n = true := by
    simp only [mem_cons, not_mem_nil, or_false]
    rintro n (rfl | rfl)
    · exact hfirst
    · exact fitsSigned_iff.2 ⟨by omega, by omega⟩
  obtain ⟨hwords, hdrop⟩ := @read_padded pos _ hhead
    (pairs.flatMap (fun pair => bytes4 pair.1 ++ bytes4 pair.2) ++ rest)
  rw [decodeOperand, show readWords? 2 _ = _ from hwords]
  simp only
  rw [if_neg (by omega), Int.toNat_natCast,
    show List.drop (switchPadding pos + 8) _ = _ from hdrop, readPairs?_bytes4 hpairs]
  simp only
  rw [if_pos hkeys]

theorem mapM_offset? {labels : List String}
    (h : ∀ label ∈ labels, offset? label = some (place label)) :
    labels.mapM offset? = some (labels.map place) := by
  rw [mapM_eq_some, map_map]
  exact map_congr_left h

theorem readsBack_tableSwitch {low : Int32} (he : (tableSwitch low otherwise targets).IsEncodable)
    (hhigh : low.toInt + (targets.length - 1 : Nat) < 2 ^ 31)
    (hoffset : ∀ label ∈ otherwise :: targets, offset? label = some (place label))
    (hfits : ∀ label ∈ otherwise :: targets, fitsSigned 32 ((place label : Int) - pos) = true) :
    (tableSwitch low otherwise targets).ReadsBack offset? pos
      (tableswitch.byte :: (List.replicate (switchPadding pos) 0 ++
        ([(place otherwise : Int) - pos, low.toInt,
            wrap32 (low.toInt + (targets.length - 1 : Nat))].flatMap bytes4 ++
          (targets.map fun label => (place label : Int) - pos).flatMap bytes4))) := by
  obtain ⟨hotherwise, htargets⟩ := forall_mem_cons.1 hoffset
  obtain ⟨hfirst, hrest⟩ := forall_mem_cons.1 hfits
  have hlow := low.le_toInt
  have hwrap := fitsSigned_iff.2 ⟨by omega, hhigh⟩
  have hoperand : (tableSwitch low otherwise targets).operand? offset? =
      some (.table (place otherwise) low.toInt (targets.map fun label => (place label : Int))) := by
    rw [operand?, hotherwise, mapM_offset? htargets]
    show some (Operand.table _ _ ((targets.map place).map Int.ofNat)) = _
    rw [map_map]
    rfl
  have hformat : tableswitch.format = .tableSwitch := rfl
  rw [wrap32_eq hwrap]
  refine readsBack_of_operand rfl hformat rfl hoperand ?_ fun rest => ?_
  · show switchPadding pos + 12 + 4 * _ = _
    simp only [length_append, length_replicate, length_flatMap_bytes4, length_map,
      length_cons, length_nil]
    omega
  · have hne : (targets.map fun label => (place label : Int) - pos) ≠ [] :=
      fun hnil => he (map_eq_nil_iff.1 hnil)
    have hread := @decodeOperand_table pos _ _ _ hne hfirst (fitsSigned_toInt low)
      (by rwa [length_map]) (forall_mem_map.2 hrest) rest
    simp only [length_map, map_map, Function.comp_def, pos_add_distance] at hread
    rw [append_assoc, append_assoc, hread]

theorem ascending_eq (l : List Int) : ascending l = CodeBuilder.strictlyAscending l := by
  induction l with
  | nil => rfl
  | cons a l ih =>
    cases l with
    | nil => rfl
    | cons b l => rw [ascending, CodeBuilder.strictlyAscending, ih]

theorem readsBack_lookupSwitch {keys : List Int32}
    (he : (lookupSwitch otherwise keys targets).IsEncodable) (hcount : keys.length < 2 ^ 31)
    (hoffset : ∀ label ∈ otherwise :: targets, offset? label = some (place label))
    (hfits : ∀ label ∈ otherwise :: targets, fitsSigned 32 ((place label : Int) - pos) = true) :
    (lookupSwitch otherwise keys targets).ReadsBack offset? pos
      (lookupswitch.byte :: (List.replicate (switchPadding pos) 0 ++
        ([(place otherwise : Int) - pos, (keys.length : Int)].flatMap bytes4 ++
          (keys.zip targets).flatMap fun (key, label) =>
            bytes4 key.toInt ++ bytes4 ((place label : Int) - pos)))) := by
  obtain ⟨hlength, hkeys⟩ := he
  obtain ⟨hotherwise, htargets⟩ := forall_mem_cons.1 hoffset
  obtain ⟨hfirst, hrest⟩ := forall_mem_cons.1 hfits
  have hzip : (keys.zip targets).length = keys.length := by
    rw [length_zip, ← hlength, Nat.min_self]
  have hoperand : (lookupSwitch otherwise keys targets).operand? offset? =
      some (.lookup (place otherwise)
        ((keys.zip targets).map fun (key, label) => (key.toInt, (place label : Int)))) := by
    rw [operand?, hotherwise, mapM_offset? htargets]
    show some (Operand.lookup _ ((keys.map Int32.toInt).zip
      ((targets.map place).map Int.ofNat))) = _
    rw [map_map, zip_map]
    rfl
  have hformat : lookupswitch.format = .lookupSwitch := rfl
  refine readsBack_of_operand rfl hformat rfl hoperand ?_ fun rest => ?_
  · show switchPadding pos + 8 + 8 * _ = _
    rw [length_append, length_append, length_replicate, length_flatMap_bytes4,
      length_flatMap_of_length _ 8 fun _ => rfl, length_map]
    show _ = switchPadding pos + (2 * 4 + (keys.zip targets).length * 8)
    omega
  · let pairs := (keys.zip targets).map fun (key, label) =>
      (key.toInt, (place label : Int) - pos)
    have hfst : pairs.map Prod.fst = keys.map Int32.toInt := by
      rw [map_map]
      show (keys.zip targets).map (Int32.toInt ∘ Prod.fst) = _
      rw [← map_map, map_fst_zip (Nat.le_of_eq hlength)]
    have hpairs : ∀ pair ∈ pairs, fitsSigned 32 pair.1 = true ∧ fitsSigned 32 pair.2 = true := by
      intro pair hpair
      obtain ⟨⟨key, label⟩, hmem, rfl⟩ := mem_map.1 hpair
      exact ⟨fitsSigned_toInt key, hrest label (of_mem_zip hmem).2⟩
    have hread := @decodeOperand_lookup pos _ pairs hfirst
      (by rwa [length_map, hzip]) (by rwa [hfst, ascending_eq]) hpairs rest
    simp only [pairs, length_map, hzip, flatMap_map, map_map, Function.comp_def,
      pos_add_distance] at hread
    rw [append_assoc, append_assoc, hread]

/-! ### The pieces of an instruction -/

/-- Every label that an instruction names has a hole among its pieces. -/
theorem exists_hole (he : e.IsEncodable) (h : label ∈ e.labels) :
    ∃ wide, Piece.hole pos label wide ∈ e.pieces pos := by
  unfold labels at h
  split at h
  · obtain rfl := mem_singleton.1 h
    exact ⟨_, mem_cons_of_mem _ mem_cons_self⟩
  · rcases mem_cons.1 h with rfl | h
    · exact ⟨true, by simp [pieces]⟩
    · exact ⟨true, by simp [pieces, h]⟩
  · next otherwise keys targets =>
    rcases mem_cons.1 h with rfl | h
    · exact ⟨true, by simp [pieces]⟩
    · -- As there are as many matches as targets, the label is paired with one of them.
      rw [← map_snd_zip (Nat.le_of_eq he.1.symm)] at h
      obtain ⟨pair, hpair, rfl⟩ := mem_map.1 h
      refine ⟨true, ?_⟩
      simp only [pieces, mem_cons, mem_flatMap]
      exact .inr (.inr (.inr ⟨pair, hpair, .inr (.inl rfl)⟩))
  · cases h

/-- The matches of a jump table are numbers of 32 bits. -/
def MatchesFit : Emission → Prop
  | .tableSwitch low _ targets => low.toInt + targets.length - 1 ≤ 2 ^ 31 - 1
  | _ => True

instance : DecidablePred MatchesFit
  | .tableSwitch low _ targets =>
    inferInstanceAs (Decidable (low.toInt + targets.length - 1 ≤ 2 ^ 31 - 1))
  | .plain _ | .immediate _ _ | .slot _ _ | .increment _ _ | .const _ _ | .branch _ _
  | .lookupSwitch _ _ _ | .invokeInterface _ _ | .invokeDynamic _ | .newArray _
  | .multiNewArray _ _ => inferInstanceAs (Decidable True)

/-- An instruction is read back from the bytes of its pieces, if all its numbers fit. -/
theorem readsBack {b : CodeBuilder} (he : e.IsEncodable) (hmatches : e.MatchesFit)
    (hend : pos + ((e.pieces pos).flatMap Piece.blank).length < 2 ^ 31)
    (hplace : ∀ label ∈ e.labels, b.place label < 2 ^ 31)
    (hfits : ∀ p ∈ e.pieces pos, p.Fits b) :
    e.ReadsBack b.offset? pos ((e.pieces pos).flatMap (Piece.fill b.place)) := by
  have hoffset : ∀ label ∈ e.labels, b.offset? label = some (b.place label) := by
    intro label hlabel
    obtain ⟨wide, hhole⟩ := exists_hole he hlabel
    exact (hfits _ hhole).1
  have hdistance : ∀ label ∈ e.labels, fitsSigned 32 ((b.place label : Int) - pos) = true :=
    fun label hlabel => fitsSigned_sub (hplace label hlabel) (by omega)
  cases e with
  | plain op => exact readsBack_of_operand rfl he rfl rfl rfl fun rest => rfl
  | immediate op value =>
    rw [pieces, flatMap_singleton]
    exact readsBack_immediate he
  | slot op index =>
    rw [pieces, flatMap_singleton]
    exact readsBack_slot he
  | increment index delta =>
    rw [pieces, flatMap_singleton]
    exact readsBack_increment he
  | const op index =>
    rw [pieces, flatMap_singleton]
    exact readsBack_const he
  | branch op label =>
    have hnear (hformat : op.format = .branch) :
        fitsSigned 16 ((b.place label : Int) - pos) = true :=
      (hfits _ (mem_cons_of_mem _ mem_cons_self)).2 (by simp [hformat])
    have hread := readsBack_branch he (hoffset label mem_cons_self) hnear
      (hdistance label mem_cons_self)
    simpa [pieces] using hread
  | tableSwitch low otherwise targets =>
    have hpos : 0 < targets.length := length_pos_iff.2 he
    have hhigh : low.toInt + (targets.length - 1 : Nat) < 2 ^ 31 := by
      have hlast : low.toInt + targets.length - 1 ≤ 2 ^ 31 - 1 := hmatches
      omega
    have hread := readsBack_tableSwitch he hhigh hoffset hdistance
    simpa [pieces, flatMap_map] using hread
  | lookupSwitch otherwise keys targets =>
    have hfill : ((lookupSwitch otherwise keys targets).pieces pos).flatMap
        (Piece.fill b.place) = lookupswitch.byte ::
          (List.replicate (switchPadding pos) 0 ++
            ([(b.place otherwise : Int) - pos, (keys.length : Int)].flatMap bytes4 ++
              (keys.zip targets).flatMap fun (key, label) =>
                bytes4 key.toInt ++ bytes4 ((b.place label : Int) - pos))) := by
      simp [pieces, flatMap_assoc]
    -- Each pair takes eight bytes of code, so there are few enough of them.
    have hcount : keys.length < 2 ^ 31 := by
      rw [← Piece.length_flatMap_fill b.place, hfill, length_cons, length_append,
        length_append, length_flatMap_bytes4, length_flatMap_of_length _ 8 fun _ => rfl,
        length_zip, ← he.1, Nat.min_self] at hend
      omega
    rw [hfill]
    exact readsBack_lookupSwitch he hcount hoffset hdistance
  | invokeInterface index count =>
    exact readsBack_invokeInterface he
  | invokeDynamic index =>
    exact readsBack_invokeDynamic he
  | newArray code =>
    exact readsBack_of_operand rfl rfl rfl rfl rfl fun rest => rfl
  | multiNewArray index dims =>
    exact readsBack_multiNewArray he

end Emission

end Bytecode
