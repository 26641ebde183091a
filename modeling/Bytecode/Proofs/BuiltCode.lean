import Bytecode.Proofs.CodeLayout
import Bytecode.Proofs.ReadBack

/-!
Code that a builder has built is read back as the instructions that were emitted.

The code is that of the pieces of all instructions, which are read one after the other. A label is
bound between two calls, so at the start of an instruction or at the end of the code.

Main statement: `CodeBuilder.decode_finish`, what is built is read back.
-/
namespace Bytecode

open Emission List

/-- A call of the builder. -/
inductive Call where
  | mark (label : String)
  | emit (e : Emission)
  deriving DecidableEq

namespace CodeBuilder

/-- The builder after a call. -/
def call (b : CodeBuilder) : Call → CodeBuilder
  | .mark label => b.mark label
  | .emit e => e.apply b

/-- The builder after calls. -/
def calls (b : CodeBuilder) (cs : List Call) : CodeBuilder :=
  cs.foldl call b

/-- The emissions among calls, each with the length of the code before it. -/
def emissions (b : CodeBuilder) : List Call → List (Nat × Emission)
  | [] => []
  | .mark label :: cs => (b.mark label).emissions cs
  | .emit e :: cs => (b.length, e) :: (e.apply b).emissions cs

/-! ### One call -/

theorem length_mark (b : CodeBuilder) (label : String) : (b.mark label).length = b.length := by
  unfold mark
  split <;> rfl

variable {b : CodeBuilder} {label : String} {pos : Nat} {pieces : List Piece} {e : Emission}
  {cs : List Call}

theorem fault_mark (h : (b.mark label).fault = none) : b.fault = none := by
  unfold mark at h
  split at h
  · exact absurd h (fault_fail b _)
  · exact h

theorem offset?_mark {other : String} (h : (b.mark label).offset? other = some pos) :
    b.offset? other = some pos ∨ pos = b.length := by
  unfold mark at h
  split at h
  · exact .inl h
  · rw [offset?, Array.find?_push] at h
    cases hfound : b.labels.find? (·.1 == other) with
    | some entry =>
      rw [hfound, Option.some_or] at h
      exact .inl (by rw [offset?, hfound, h])
    | none =>
      rw [hfound, Option.none_or] at h
      split at h
      · exact .inr (Option.some.inj h).symm
      · cases h

theorem Holds.mark (h : b.Holds pieces) (label : String) : (b.mark label).Holds pieces := by
  unfold CodeBuilder.mark
  split
  · exact ⟨h.code, h.fixups⟩
  · exact ⟨h.code, h.fixups⟩

theorem length_apply (h : (e.apply b).fault = none) :
    (e.apply b).length = b.length + ((e.pieces b.length).flatMap Piece.blank).length := by
  rw [(apply_eq h).2, length_add]

theorem fault_apply (h : (e.apply b).fault = none) : b.fault = none := by
  rwa [(apply_eq h).2, fault_add] at h

theorem offset?_apply (h : (e.apply b).fault = none) (label : String) :
    (e.apply b).offset? label = b.offset? label := by
  rw [(apply_eq h).2, offset?, labels_add, offset?]

/-! ### Runs of calls -/

theorem fault_calls (h : (b.calls cs).fault = none) : b.fault = none := by
  induction cs generalizing b with
  | nil => exact h
  | cons c cs ih =>
    have hcall : (b.call c).fault = none := ih h
    cases c with
    | mark label => exact fault_mark hcall
    | emit e => exact fault_apply hcall

theorem length_le_calls (h : (b.calls cs).fault = none) : b.length ≤ (b.calls cs).length := by
  induction cs generalizing b with
  | nil => exact Nat.le_refl _
  | cons c cs ih =>
    have hrest : (b.call c).length ≤ (b.calls (c :: cs)).length := ih h
    cases c with
    | mark label =>
      have hmark := b.length_mark label
      rw [call] at hrest
      omega
    | emit e =>
      have happly := length_apply (e := e) (fault_calls h)
      rw [call] at hrest
      omega

theorem holds_calls (hb : b.Holds pieces) (h : (b.calls cs).fault = none) :
    (b.calls cs).Holds (pieces ++ (b.emissions cs).flatMap fun p => p.2.pieces p.1) := by
  induction cs generalizing b pieces with
  | nil => rwa [emissions, flatMap_nil, append_nil]
  | cons c cs ih =>
    cases c with
    | mark label => exact ih (hb.mark label) h
    | emit e =>
      have happly := (apply_eq (fault_calls (b := e.apply b) h)).2
      have hstep : (e.apply b).Holds (pieces ++ e.pieces b.length) := by
        rw [happly]
        exact hb.add _
      rw [emissions, flatMap_cons, ← append_assoc]
      exact ih hstep h

theorem start_of_length (b : CodeBuilder) (cs : List Call) :
    (b.calls cs).length = b.length ∨ ∃ p ∈ b.emissions cs, p.1 = b.length := by
  induction cs generalizing b with
  | nil => exact .inl rfl
  | cons c cs ih =>
    cases c with
    | mark label =>
      rw [← b.length_mark label]
      exact ih (b.mark label)
    | emit e => exact .inr ⟨_, mem_cons_self, rfl⟩

theorem start_of_offset? (h : (b.calls cs).fault = none)
    (hpos : (b.calls cs).offset? label = some pos) :
    b.offset? label = some pos ∨ (b.calls cs).length = pos ∨
      ∃ p ∈ b.emissions cs, p.1 = pos := by
  induction cs generalizing b with
  | nil => exact .inl hpos
  | cons c cs ih =>
    cases c with
    | mark other =>
      rcases ih h hpos with hfound | hstart
      · rcases offset?_mark hfound with hbefore | rfl
        · exact .inl hbefore
        · exact .inr (start_of_length b (.mark other :: cs))
      · exact .inr hstart
    | emit e =>
      rcases ih h hpos with hfound | hend | ⟨p, hp, hstart⟩
      · rw [call, offset?_apply (fault_calls h)] at hfound
        exact .inl hfound
      · exact .inr (.inl hend)
      · exact .inr (.inr ⟨p, mem_cons_of_mem _ hp, hstart⟩)

/-! ### Reading the code -/

theorem decodeFrom_append {read : Array Instruction} {bytes rest : List UInt8} {ins : Instruction}
    (hread : decodeAt pos (bytes ++ rest) = .ok ins) (hsize : ins.size = bytes.length) :
    decodeFrom read pos (bytes ++ rest) =
      decodeFrom (read.push ins) (pos + bytes.length) rest := by
  have hpos := ins.size_pos
  cases bytes with
  | nil => rw [length_nil] at hsize; omega
  | cons byte bytes =>
    rw [cons_append, decodeFrom]
    rw [cons_append] at hread
    rw [hread]
    show decodeFrom (read.push ins) (pos + ins.size) ((byte :: (bytes ++ rest)).drop ins.size) = _
    rw [hsize, ← cons_append, drop_left]

/-- The bytes of emissions, with the offsets of the labels. -/
def bytesOf (place : String → Nat) (l : List (Nat × Emission)) : List UInt8 :=
  (l.flatMap fun p => p.2.pieces p.1).flatMap (Piece.fill place)

/-- The instructions of calls are read one after the other. The labels are those of a builder
`final`, in which all the branches fit. -/
theorem decodeFrom_emissions {final : CodeBuilder} (hfault : (b.calls cs).fault = none)
    (hlength : (b.calls cs).length < 2 ^ 31) (hmatches : ∀ p ∈ b.emissions cs, p.2.MatchesFit)
    (hplace : ∀ p ∈ b.emissions cs, ∀ label ∈ p.2.labels, final.place label < 2 ^ 31)
    (hfits : ∀ p ∈ b.emissions cs, ∀ piece ∈ p.2.pieces p.1, piece.Fits final) :
    ∃ l : List Instruction,
      (b.emissions cs).map (fun p => p.2.instruction? final.offset? p.1) = l.map some ∧
        ∀ read, decodeFrom read b.length (bytesOf final.place (b.emissions cs)) =
          .ok (read ++ l.toArray) := by
  induction cs generalizing b with
  | nil =>
    refine ⟨[], rfl, fun read => ?_⟩
    rw [show bytesOf final.place (b.emissions []) = [] from rfl, decodeFrom]
    simp
  | cons c cs ih =>
    cases c with
    | mark label =>
      rw [← b.length_mark label]
      exact ih hfault hlength hmatches hplace hfits
    | emit e =>
      have happly : (e.apply b).fault = none := fault_calls hfault
      have hnext := length_apply happly
      have hle : (e.apply b).length ≤ _ := length_le_calls hfault
      have hend : (b.calls (.emit e :: cs)).length = ((e.apply b).calls cs).length := rfl
      obtain ⟨hmatch, hmatches⟩ := forall_mem_cons.1 hmatches
      obtain ⟨hlabels, hplace⟩ := forall_mem_cons.1 hplace
      obtain ⟨hpieces, hfits⟩ := forall_mem_cons.1 hfits
      have hroom : b.length + ((e.pieces b.length).flatMap Piece.blank).length < 2 ^ 31 := by omega
      obtain ⟨ins, hins, hsize, hread⟩ := readsBack (apply_eq happly).1 hmatch hroom hlabels hpieces
      obtain ⟨l, hl, hrest⟩ := ih (b := e.apply b) hfault hlength hmatches hplace hfits
      refine ⟨ins :: l, ?_, fun read => ?_⟩
      · rw [emissions, map_cons, map_cons, hl, hins]
      · rw [emissions, bytesOf, flatMap_cons, flatMap_append,
          decodeFrom_append (hread _) hsize, Piece.length_flatMap_fill, ← hnext]
        exact (hrest (read.push ins)).trans (by simp)

end CodeBuilder

namespace Emission

variable {offset? : String → Option Nat} {pos : Nat} {e : Emission} {ins : Instruction}

theorem mem_mapM_offset? {labels : List String} {l : List Nat} {n : Nat}
    (h : labels.mapM offset? = some l) (hn : n ∈ l) : ∃ label ∈ labels, offset? label = some n := by
  have hmem : some n ∈ labels.map offset? := mapM_eq_some.1 h ▸ mem_map_of_mem hn
  exact mem_map.1 hmem

theorem label_of_branchTarget {target : Int} (h : e.instruction? offset? pos = some ins)
    (ht : target ∈ ins.branchTargets) :
    ∃ label ∈ e.labels, ∃ n : Nat, offset? label = some n ∧ target = n := by
  obtain ⟨operand, hoperand, rfl⟩ := Option.map_eq_some_iff.1 h
  cases e with
  | branch op label =>
    obtain ⟨n, hn, rfl⟩ := Option.map_eq_some_iff.1 hoperand
    exact ⟨label, mem_cons_self, n, hn, mem_singleton.1 ht⟩
  | tableSwitch low otherwise targets =>
    simp only [operand?, bind, Option.bind_eq_some_iff, pure, Option.some.injEq] at hoperand
    obtain ⟨first, hfirst, rest, hrest, rfl⟩ := hoperand
    rcases mem_cons.1 ht with rfl | ht
    · exact ⟨otherwise, mem_cons_self, first, hfirst, rfl⟩
    · obtain ⟨n, hn, rfl⟩ := mem_map.1 ht
      obtain ⟨label, hlabel, heq⟩ := mem_mapM_offset? hrest hn
      exact ⟨label, mem_cons_of_mem _ hlabel, n, heq, rfl⟩
  | lookupSwitch otherwise keys targets =>
    simp only [operand?, bind, Option.bind_eq_some_iff, pure, Option.some.injEq] at hoperand
    obtain ⟨first, hfirst, rest, hrest, rfl⟩ := hoperand
    rcases mem_cons.1 ht with rfl | ht
    · exact ⟨otherwise, mem_cons_self, first, hfirst, rfl⟩
    · obtain ⟨pair, hpair, rfl⟩ := mem_map.1 ht
      obtain ⟨n, hn, heq⟩ := mem_map.1 (of_mem_zip hpair).2
      obtain ⟨label, hlabel, hoffset⟩ := mem_mapM_offset? hrest hn
      exact ⟨label, mem_cons_of_mem _ hlabel, n, hoffset, heq.symm⟩
  | plain | immediate | newArray =>
    cases hoperand
    cases ht
  | slot | increment | const | invokeDynamic =>
    obtain ⟨n, -, rfl⟩ := Option.map_eq_some_iff.1 hoperand
    cases ht
  | invokeInterface | multiNewArray =>
    simp only [operand?, bind, Option.bind_eq_some_iff, pure, Option.some.injEq] at hoperand
    obtain ⟨n, -, m, -, rfl⟩ := hoperand
    cases ht

theorem pos_of_instruction? (h : e.instruction? offset? pos = some ins) :
    ins.pos = pos ∧ ins.op = e.opcode := by
  obtain ⟨operand, -, rfl⟩ := Option.map_eq_some_iff.1 h
  exact ⟨rfl, rfl⟩

end Emission

namespace CodeBuilder

theorem fault_of_finish {b : CodeBuilder} {code : Array UInt8} (h : b.finish = .ok code) :
    b.fault = none := by
  unfold finish at h
  split at h
  · cases h
  · next hfault => exact hfault

/-- The instructions that are read from built code are laid out as they must be. -/
theorem laid_emissions {cs : List Call} {l : List Instruction} {bytes : List UInt8}
    (hfault : (empty.calls cs).fault = none)
    (hl : (empty.emissions cs).map (fun p => p.2.instruction? (empty.calls cs).offset? p.1) =
      l.map some)
    (hread : decodeFrom #[] 0 bytes = .ok l.toArray)
    (hlast : ∃ p, (empty.emissions cs).getLast? = some p ∧ p.2.opcode.endsFlow = true)
    (hlabels : ∀ p ∈ empty.emissions cs, ∀ label ∈ p.2.labels,
      ∃ pos < (empty.calls cs).length, (empty.calls cs).offset? label = some pos) :
    Laid l.toArray := by
  have hempty : Tiled #[] 0 := ⟨by simp, by simp⟩
  obtain ⟨⟨stop, htiled⟩, hwide⟩ := decodeFrom_tiled hread hempty (by simp)
  obtain ⟨last, hlast, hends⟩ := hlast
  -- The instructions and the emissions have the same last element, if any.
  have hback : (l.getLast?).map some =
      some (last.2.instruction? (empty.calls cs).offset? last.1) := by
    rw [← getLast?_map, ← hl, getLast?_map, hlast]
    rfl
  refine ⟨?_, htiled.adjacent, hwide, ?_, ?_⟩
  · rw [size_toArray, length_pos_iff]
    rintro rfl
    cases hback
  · intro ins hins target htarget
    have hmem : some ins ∈ l.map some := mem_map_of_mem (by simpa using hins)
    rw [← hl] at hmem
    obtain ⟨p, hp, heq⟩ := mem_map.1 hmem
    obtain ⟨label, hlabel, n, hn, rfl⟩ := label_of_branchTarget heq htarget
    obtain ⟨pos, hpos, hbound⟩ := hlabels p hp label hlabel
    obtain rfl : n = pos := Option.some.inj (hn.symm.trans hbound)
    rcases start_of_offset? hfault hbound with hnone | hend | ⟨other, hother, rfl⟩
    · cases hnone
    · omega
    · have hfound : other.2.instruction? (empty.calls cs).offset? other.1 ∈ l.map some := by
        rw [← hl]
        exact mem_map_of_mem hother
      obtain ⟨start, hstart, heq⟩ := mem_map.1 hfound
      refine ⟨start, by simpa using hstart, ?_⟩
      rw [(pos_of_instruction? heq.symm).1]
  · intro ins hins
    rw [back?_toArray] at hins
    rw [hins] at hback
    rw [(pos_of_instruction? (Option.some.inj hback).symm).2]
    exact hends

/-- Code that a builder has built is read back as the instructions that were emitted, one for each
emission: at the length of the code before it, with its opcode, its operands and, for its branches,
the offsets of its labels. The code must end with an instruction after which control does not go
on, no branch may go to the end of the code, and the numbers of 32 bits must not run over. -/
theorem decode_finish {cs : List Call} {code : Array UInt8}
    (hlast : ∃ p, (empty.emissions cs).getLast? = some p ∧ p.2.opcode.endsFlow = true)
    (hlabels : ∀ p ∈ empty.emissions cs, ∀ label ∈ p.2.labels,
      ∃ pos < (empty.calls cs).length, (empty.calls cs).offset? label = some pos)
    (hlength : (empty.calls cs).length < 2 ^ 31)
    (hmatches : ∀ p ∈ empty.emissions cs, p.2.MatchesFit)
    (hcode : (empty.calls cs).finish = .ok code) :
    ∃ l : List Instruction, decode code.toList = .ok l.toArray ∧
      (empty.emissions cs).map (fun p => p.2.instruction? (empty.calls cs).offset? p.1) =
        l.map some := by
  have hfault := fault_of_finish hcode
  obtain ⟨hbytes, hfits⟩ := (holds_calls holds_empty hfault).finish hcode
  have hplace : ∀ p ∈ empty.emissions cs, ∀ label ∈ p.2.labels,
      (empty.calls cs).place label < 2 ^ 31 := by
    intro p hp label hlabel
    obtain ⟨pos, hpos, hbound⟩ := hlabels p hp label hlabel
    rw [place_eq hbound]
    omega
  obtain ⟨l, hl, hread⟩ := decodeFrom_emissions hfault hlength hmatches hplace
    fun p hp piece hpiece => hfits piece (mem_flatMap.2 ⟨p, hp, hpiece⟩)
  have hread : decodeFrom #[] 0 code.toList = .ok l.toArray := by
    rw [hbytes]
    exact (hread #[]).trans (by simp)
  have hlaid := laid_emissions hfault hl hread hlast hlabels
  have hne : code.toList ≠ [] := by
    intro hnil
    rw [hnil, decodeFrom] at hread
    have hpos := hlaid.nonempty
    rw [← Except.ok.inj hread] at hpos
    exact absurd hpos (by decide)
  exact ⟨l, hlaid.decode_eq_ok hne hread, hl⟩

/-- A loop over two switches, with labels on both sides of their branches, a jump table up to the
greatest match there is, and operands that need the widening mark. -/
def switchLoop : List Call :=
  [.mark "top", .emit (.slot ⟨⟨0x15, by decide⟩⟩ 300),
   .emit (.tableSwitch 2147483646 "done" ["top", "next"]),
   .mark "next", .emit (.const .ldc 256), .emit (.increment 3 (-129)),
   .emit (.branch ⟨⟨0x99, by decide⟩⟩ "done"), .emit (.lookupSwitch "top" [-1, 7] ["next", "done"]),
   .mark "done", .emit (.branch ⟨⟨0xc8, by decide⟩⟩ "top")]

/-- The instructions of the loop. -/
def switchLoopCode : List Instruction :=
  [⟨0, ⟨⟨0x15, by decide⟩⟩, true, .slot 300⟩, ⟨4, .tableswitch, false, .table 68 2147483646 [0, 28]⟩,
   ⟨28, .ldcW, false, .const 256⟩, ⟨31, .iinc, true, .increment 3 (-129)⟩,
   ⟨37, ⟨⟨0x99, by decide⟩⟩, false, .target 68⟩,
   ⟨40, .lookupswitch, false, .lookup 0 [(-1, 28), (7, 68)]⟩,
   ⟨68, ⟨⟨0xc8, by decide⟩⟩, false, .target 0⟩]

theorem decode_finish_switchLoop :
    ∃ code, (empty.calls switchLoop).finish = .ok code ∧
      decode code.toList = .ok switchLoopCode.toArray := by
  have hcode : ∃ code, (empty.calls switchLoop).finish = .ok code := ⟨_, rfl⟩
  have hexpected : (empty.emissions switchLoop).map
      (fun p => p.2.instruction? (empty.calls switchLoop).offset? p.1) =
        switchLoopCode.map some := by
    decide +kernel
  have hlabels : ∀ p ∈ empty.emissions switchLoop, ∀ label ∈ p.2.labels,
      ∃ pos < (empty.calls switchLoop).length,
        (empty.calls switchLoop).offset? label = some pos := by
    decide +kernel
  have hmatches : ∀ p ∈ empty.emissions switchLoop, p.2.MatchesFit := by
    decide +kernel
  obtain ⟨code, hcode⟩ := hcode
  obtain ⟨l, hdecode, hl⟩ := decode_finish ⟨_, rfl, by decide +kernel⟩ hlabels
    (by decide +kernel) hmatches hcode
  have heq : switchLoopCode = l :=
    (List.map_inj_right fun _ _ => Option.some.inj).1 (hexpected.symm.trans hl)
  exact ⟨code, hcode, by rw [heq, hdecode]⟩

end CodeBuilder

end Bytecode
