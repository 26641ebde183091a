import Bytecode.StaticCheck
import Bytecode.FlowGraph
import Bytecode.Proofs.Failing

/-!
How decoded code is laid out, and the graph that is built of it.

* `Laid`: instructions follow each other without gaps, branches meet instructions and control
  cannot run off the end;
* `CodeEdges.Built`: the nodes and edges of a graph are those of its instructions.
-/
namespace Bytecode

open List

/-! ### Decoded code -/

/-- Each instruction begins where the one before it ends, and one more would begin at `stop`. -/
structure Tiled (code : Array Instruction) (stop : Nat) : Prop where
  adjacent : ∀ n a b, code[n]? = some a → code[n + 1]? = some b → b.pos = a.next
  stop : ∀ a, code.back? = some a → a.next = stop

/-- What decoding promises of a code array. -/
structure Laid (code : Array Instruction) : Prop where
  nonempty : 0 < code.size
  adjacent : ∀ n a b, code[n]? = some a → code[n + 1]? = some b → b.pos = a.next
  notWide : ∀ ins ∈ code, ins.op.format ≠ .wide
  branches : ∀ ins ∈ code, ∀ target ∈ ins.branchTargets, ∃ other ∈ code, target = other.pos
  last : ∀ ins, code.back? = some ins → ins.op.endsFlow = true

variable {code : Array Instruction} {ins : Instruction} {pos k n : Nat} {bytes : List UInt8}
  {index : Array (Option Nat)} {offset : Int}

theorem Tiled.push {stop : Nat} (h : Tiled code stop) (hpos : ins.pos = stop) :
    Tiled (code.push ins) ins.next := by
  refine ⟨fun n a b ha hb => ?_, fun a ha => ?_⟩
  · rw [Array.getElem?_push] at ha hb
    split at hb
    · next hn =>
      cases hb
      rw [if_neg (by omega)] at ha
      rw [hpos, h.stop a]
      rw [Array.back?_eq_getElem?, ← ha]
      congr 1
      omega
    · split at ha
      · next hn => simp [hn] at hb
      · exact h.adjacent n a b ha hb
  · simp only [Array.back?_push, Option.some.injEq] at ha
    rw [ha]

theorem decodeWide_ok {rest : List UInt8} (h : decodeWide pos rest = .ok ins) : ∃ op,
    (op.format = .iinc ∧ 5 ≤ rest.length ∧
      ∃ slot delta, ins = ⟨pos, op, true, .increment slot delta⟩) ∨
    (op.format = .slot ∧ 3 ≤ rest.length ∧ ∃ slot, ins = ⟨pos, op, true, .slot slot⟩) := by
  unfold decodeWide at h
  split at h
  · cases h
  · split at h
    · cases h
    · next op _ =>
      split at h <;> cases h
      · next hformat => exact ⟨op, .inl ⟨hformat, by simp, _, _, rfl⟩⟩
      · next hformat => exact ⟨op, .inr ⟨hformat, by simp, _, rfl⟩⟩

theorem decodeAt_ok {code : List UInt8} (h : decodeAt pos code = .ok ins) : ∃ byte rest,
    code = byte :: rest ∧ (decodeWide pos rest = .ok ins ∨ ∃ op operand, op.format ≠ .wide ∧
      decodeOperand pos op.format rest = .ok operand ∧ ins = ⟨pos, op, false, operand⟩) := by
  unfold decodeAt at h
  split at h
  · cases h
  · next byte rest =>
    refine ⟨byte, rest, rfl, ?_⟩
    split at h
    · cases h
    · next op _ =>
      split at h
      · exact .inl h
      · next hformat =>
        obtain ⟨operand, hoperand, rfl⟩ := map_eq_ok.1 h
        exact .inr ⟨op, operand, hformat, hoperand, rfl⟩

theorem pos_decodeAt {code : List UInt8} (h : decodeAt pos code = .ok ins) :
    ins.pos = pos ∧ ins.op.format ≠ .wide := by
  obtain ⟨byte, rest, rfl, hwide | ⟨op, operand, hformat, -, rfl⟩⟩ := decodeAt_ok h
  · obtain ⟨op, ⟨hformat, -, _, _, rfl⟩ | ⟨hformat, -, _, rfl⟩⟩ := decodeWide_ok hwide
    · exact ⟨rfl, by simp [hformat]⟩
    · exact ⟨rfl, by simp [hformat]⟩
  · exact ⟨rfl, hformat⟩

theorem decodeFrom_tiled {read r : Array Instruction} {code : List UInt8}
    (h : decodeFrom read pos code = .ok r) (htiled : Tiled read pos)
    (hwide : ∀ ins ∈ read, ins.op.format ≠ .wide) :
    (∃ stop, Tiled r stop) ∧ ∀ ins ∈ r, ins.op.format ≠ .wide := by
  fun_induction decodeFrom read pos code with
  | case1 =>
    cases h
    exact ⟨⟨_, htiled⟩, hwide⟩
  | case2 => cases h
  | case3 read pos byte rest ins hins _ ih =>
    obtain ⟨hpos, hf⟩ := pos_decodeAt hins
    refine ih h ?_ ?_
    · have hpush := htiled.push hpos
      rwa [Instruction.next, hpos] at hpush
    · intro other hother
      rcases Array.mem_push.1 hother with hother | rfl
      · exact hwide other hother
      · exact hf

theorem decodeFrom_of_decode {l : Array Instruction} (h : decode bytes = .ok l) :
    decodeFrom #[] 0 bytes = .ok l := by
  unfold decode at h
  split at h
  · cases h
  · obtain ⟨code, hcode, h⟩ := bind_eq_ok.1 h
    split at h
    · cases h
    · split at h
      · split at h
        · cases h
          exact hcode
        · cases h
      · cases h

/-! ### Offsets -/

/-- An index of offsets after the instructions of `l`, of which the first has number `k`. -/
def indexed (index : Array (Option Nat)) (k : Nat) (l : List Instruction) : Array (Option Nat) :=
  (l.zipIdx k).foldl (fun index (ins, i) => index.setIfInBounds ins.pos (some i)) index

theorem indexed_cons (index : Array (Option Nat)) (k : Nat) (ins : Instruction)
    (l : List Instruction) :
    indexed index k (ins :: l) = indexed (index.setIfInBounds ins.pos (some k)) (k + 1) l := by
  simp [indexed]

theorem indexed_sound {l : List Instruction} (h : (indexed index k l)[pos]? = some (some n)) :
    (∃ j ins, l[j]? = some ins ∧ ins.pos = pos ∧ n = k + j) ∨ index[pos]? = some (some n) := by
  induction l generalizing index k with
  | nil => exact .inr h
  | cons ins l ih =>
    rw [indexed_cons] at h
    rcases ih h with ⟨j, other, hj, hpos, rfl⟩ | hold
    · exact .inl ⟨j + 1, other, by simpa using hj, hpos, by omega⟩
    · rw [Array.getElem?_setIfInBounds] at hold
      split at hold
      · next he =>
        split at hold
        · cases hold
          exact .inl ⟨0, ins, rfl, he, rfl⟩
        · cases hold
      · exact .inr hold

theorem indexed_of_ne {l : List Instruction} (h : ∀ ins ∈ l, ins.pos ≠ pos) :
    (indexed index k l)[pos]? = index[pos]? := by
  induction l generalizing index k with
  | nil => rfl
  | cons ins l ih =>
    rw [indexed_cons, ih fun other hother => h other (mem_cons_of_mem ins hother),
      Array.getElem?_setIfInBounds, if_neg (h ins mem_cons_self)]

theorem indexed_complete {index : Array (Option Nat)} {k j : Nat} {l : List Instruction}
    {ins : Instruction} (hl : l.Pairwise fun a b => a.pos ≠ b.pos) (hj : l[j]? = some ins)
    (hrange : ins.pos < index.size) : (indexed index k l)[ins.pos]? = some (some (k + j)) := by
  induction l generalizing index k j with
  | nil => simp at hj
  | cons first l ih =>
    obtain ⟨hfirst, hl⟩ := pairwise_cons.1 hl
    rw [indexed_cons]
    cases j with
    | zero =>
      obtain rfl : first = ins := by simpa using hj
      rw [indexed_of_ne fun other hother => (hfirst other hother).symm,
        Array.getElem?_setIfInBounds, if_pos rfl, if_pos hrange, Nat.add_zero]
    | succ j =>
      rw [ih hl (by simpa using hj) (by simpa using hrange), Nat.add_assoc, Nat.add_comm 1]

theorem instructionAt?_sound (h : instructionAt? (indexOffsets code) offset = some n) :
    ∃ ins, code[n]? = some ins ∧ (ins.pos : Int) = offset := by
  unfold instructionAt? at h
  split at h
  · next pos =>
    rw [Array.getD_eq_getD_getElem?, Option.getD_eq_iff] at h
    have hfound : (indexed (Array.replicate (codeEnd code) none) 0 code.toList)[pos]? =
        some (some n) := by
      show (indexOffsets code)[pos]? = _
      simpa using h
    rcases indexed_sound hfound with ⟨j, ins, hj, hpos, rfl⟩ | hnone
    · exact ⟨ins, by simpa using hj, by rw [hpos]; rfl⟩
    · simp [Array.getElem?_replicate] at hnone
  · cases h

theorem strayBranch?_eq_none (h : strayBranch? index code = none) :
    ∀ ins ∈ code, ∀ target ∈ ins.branchTargets, isStart index target = true := by
  intro ins hins target htarget
  have hnone := Array.findSome?_eq_none_iff.1 h ins hins
  simp only [Option.map_eq_none_iff, List.find?_eq_none, Bool.not_eq_true', Bool.not_eq_false]
    at hnone
  exact hnone target htarget

theorem laid_of_decode (h : decode bytes = .ok code) : Laid code := by
  unfold decode at h
  split at h
  · cases h
  · obtain ⟨r, hr, h⟩ := bind_eq_ok.1 h
    split at h
    · cases h
    · next hstray =>
      split at h
      · next last hlast =>
        split at h
        · next hends =>
          cases h
          have hempty : Tiled #[] 0 := ⟨by simp, by simp⟩
          obtain ⟨⟨stop, htiled⟩, hwide⟩ := decodeFrom_tiled hr hempty (by simp)
          refine ⟨?_, htiled.adjacent, hwide, ?_, ?_⟩
          · rw [Array.back?_eq_getElem?] at hlast
            have := (Array.getElem?_eq_some_iff.1 hlast).1
            omega
          · intro ins hins target htarget
            have hstart := strayBranch?_eq_none hstray ins hins target htarget
            obtain ⟨n, hn⟩ := Option.isSome_iff_exists.1 hstart
            obtain ⟨other, hother, hpos⟩ := instructionAt?_sound hn
            exact ⟨other, Array.mem_of_getElem? hother, hpos.symm⟩
          · intro ins hins
            cases hlast.symm.trans hins
            exact hends
        · cases h
      · cases h

/-! ### Laid out code -/

namespace Laid

variable {code : Array Instruction}

variable {n m : Nat} {a b : Instruction}

theorem pos_lt (h : Laid code) (hnm : n < m) (ha : code[n]? = some a) (hb : code[m]? = some b) :
    a.pos < b.pos := by
  induction m generalizing b with
  | zero => omega
  | succ m ih =>
    have hm : m < code.size := by
      have := (Array.getElem?_eq_some_iff.1 hb).1
      omega
    have hlt := code[m].size_pos
    have hadj := h.adjacent m _ b (Array.getElem?_eq_getElem hm) hb
    rw [Instruction.next] at hadj
    by_cases hn : n = m
    · subst hn
      rw [Array.getElem?_eq_getElem hm] at ha
      cases ha
      omega
    · have := ih (by omega) (Array.getElem?_eq_getElem hm)
      omega

theorem eq_of_pos_eq (h : Laid code) (ha : code[n]? = some a) (hb : code[m]? = some b)
    (hpos : a.pos = b.pos) : n = m := by
  rcases Nat.lt_trichotomy n m with hlt | rfl | hlt
  · have := h.pos_lt hlt ha hb
    omega
  · rfl
  · have := h.pos_lt hlt hb ha
    omega

theorem next_lt (h : Laid code) (hnm : n < m) (ha : code[n]? = some a) (hb : code[m]? = some b) :
    a.next < b.next := by
  have hm := (Array.getElem?_eq_some_iff.1 hb).1
  have hadj := h.adjacent n a _ ha (Array.getElem?_eq_getElem (by omega : n + 1 < code.size))
  have hlt : b.pos < b.next := by
    rw [Instruction.next]
    have := b.size_pos
    omega
  rcases Nat.lt_or_eq_of_le (show n + 1 ≤ m from hnm) with hgt | rfl
  · have := h.pos_lt hgt (Array.getElem?_eq_getElem (by omega)) hb
    omega
  · cases (Array.getElem?_eq_getElem hm).symm.trans hb
    omega

theorem eq_of_next_eq (h : Laid code) (ha : code[n]? = some a) (hb : code[m]? = some b)
    (hnext : a.next = b.next) : n = m := by
  rcases Nat.lt_trichotomy n m with hlt | rfl | hlt
  · have := h.next_lt hlt ha hb
    omega
  · rfl
  · have := h.next_lt hlt hb ha
    omega

theorem succ_lt (h : Laid code) (ha : code[n]? = some a) (hends : a.op.endsFlow = false) :
    n + 1 < code.size := by
  have hn := (Array.getElem?_eq_some_iff.1 ha).1
  rcases Nat.lt_or_ge (n + 1) code.size with hlt | hge
  · exact hlt
  · have hback : code.back? = some a := by
      rw [Array.back?_eq_getElem?, ← ha]
      congr 1
      omega
    rw [h.last a hback] at hends
    cases hends

theorem pos_lt_codeEnd (h : Laid code) (ha : code[n]? = some a) : a.pos < codeEnd code := by
  have hn := (Array.getElem?_eq_some_iff.1 ha).1
  have hlast : code.back? = some code[code.size - 1] := by
    rw [Array.back?_eq_getElem?, Array.getElem?_eq_getElem (by omega)]
  have hnext : codeEnd code = code[code.size - 1].next := by simp [codeEnd, hlast]
  have hpos := code[code.size - 1].size_pos
  rw [hnext, Instruction.next]
  by_cases hlt : n = code.size - 1
  · subst hlt
    rw [Array.getElem?_eq_getElem hn] at ha
    cases ha
    omega
  · have := h.pos_lt (by omega : n < code.size - 1) ha (Array.getElem?_eq_getElem (by omega))
    omega

theorem instructionAt?_complete (h : Laid code) (hn : code[n]? = some ins) :
    instructionAt? (indexOffsets code) ins.pos = some n := by
  have hpairs : code.toList.Pairwise fun a b => a.pos ≠ b.pos := by
    rw [pairwise_iff_getElem]
    intro i j hi hj hij
    have := h.pos_lt hij (Array.getElem?_eq_getElem hi) (Array.getElem?_eq_getElem hj)
    simp only [Array.getElem_toList]
    omega
  have hfound := @indexed_complete (Array.replicate (codeEnd code) none) 0 n code.toList ins hpairs
    (by simpa using hn) (by simpa using h.pos_lt_codeEnd hn)
  show (indexed (Array.replicate (codeEnd code) none) 0 code.toList).getD ins.pos none = some n
  rw [Array.getD_eq_getD_getElem?, hfound, Nat.zero_add]
  rfl

theorem decode_eq_ok (h : Laid code) (hbytes : bytes ≠ [])
    (hread : decodeFrom #[] 0 bytes = .ok code) : decode bytes = .ok code := by
  have hstray : strayBranch? (indexOffsets code) code = none := by
    rw [strayBranch?, Array.findSome?_eq_none_iff]
    intro ins hins
    simp only [Option.map_eq_none_iff, List.find?_eq_none, Bool.not_eq_true', Bool.not_eq_false]
    intro target htarget
    obtain ⟨other, hother, rfl⟩ := h.branches ins hins target htarget
    obtain ⟨n, hn⟩ := Array.mem_iff_getElem?.1 hother
    rw [isStart, h.instructionAt?_complete hn]
    rfl
  have hpos := h.nonempty
  have hlast : code.back? = some code[code.size - 1] := by
    rw [Array.back?_eq_getElem?, Array.getElem?_eq_getElem (by omega)]
  rw [decode, if_neg (by simpa using hbytes), hread]
  simp only [bind, Except.bind, hstray, hlast, h.last _ hlast, if_true]

end Laid

/-! ### The graph -/

namespace CodeEdges

variable {n m : Nat} {g : CodeEdges} {pool : ConstantPool}

theorem getElem?_code (g : CodeEdges) (hn : n < g.size) : g.code[n]? = some (g.instruction n) := by
  simp only [size] at hn
  simp [instruction, Array.getD_eq_getD_getElem?, hn]

/-- What the graph of some code has to do with the code. -/
structure Built (g : CodeEdges) (code : Array Instruction) (table : List Handler)
    (pool : ConstantPool) : Prop where
  nodes : g.nodes = indexOffsets code
  code : g.code = code
  nonempty : 0 < g.size
  successors : ∀ n, n < g.size → g.staticSuccessors (g.instruction n) = .ok (g.successorsOf n)
  noSuccessors : ∀ n, g.size ≤ n → g.successorsOf n = []
  guards : ∀ guard ∈ g.guards, ∃ h ∈ table, ∃ i, g.guard pool h i = .ok guard
  guarded : ∀ h ∈ table, ∃ i, ∃ guard ∈ g.guards, g.guard pool h i = .ok guard

theorem built_of_build {table : List Handler} (h : build code table pool = .ok g) :
    g.Built code table pool := by
  unfold build at h
  simp only [bind_eq_ok, pure_eq_ok, ite_eq_ok, reduceCtorEq, false_and, exists_false,
    imp_false, Bool.not_eq_true] at h
  obtain ⟨hempty, h⟩ := h
  obtain ⟨successors, hsuccessors, guards, hguards, rfl⟩ := h hempty
  obtain ⟨hsize, hsucc⟩ := getElem?_of_array_mapM hsuccessors
  refine ⟨rfl, rfl, ?_, fun n hn => ?_, fun n hn => ?_, fun guard hguard => ?_, fun h hh => ?_⟩
  · show 0 < code.size
    have := Array.isEmpty_eq_false_iff.1 hempty
    exact Array.size_pos_iff.2 this
  · obtain ⟨list, hlist, hok⟩ := hsucc n _ (getElem?_code _ hn)
    simp only [successorsOf, Array.getD_eq_getD_getElem?, hlist, Option.getD_some]
    exact hok
  · have hge : successors.size ≤ n := by
      rw [hsize]
      exact hn
    simp [successorsOf, Array.getD_eq_getD_getElem?, hge]
  · obtain ⟨⟨handler, i⟩, hmem, hok⟩ := exists_of_mem_mapM hguards hguard
    exact ⟨handler, fst_mem_of_mem_zipIdx hmem, i, hok⟩
  · obtain ⟨i, hi⟩ := getElem?_of_mem hh
    have hmem : (h, i) ∈ table.zipIdx := mem_zipIdx_iff_getElem?.2 hi
    obtain ⟨guard, hguard, hok⟩ := exists_mem_of_mapM hguards hmem
    exact ⟨i, guard, hguard, hok⟩

theorem mem_guards {guard : Guard} (h : guard ∈ g.guardsOf n) : guard ∈ g.guards := by
  obtain ⟨i, -, hi⟩ := mem_filterMap.1 h
  exact mem_of_getElem? hi

theorem guard_spec {h : Handler} {i : Nat} {guard : Guard} (hguard : g.guard pool h i = .ok guard) :
    g.node? h.start = some guard.start ∧
      (g.node? h.stop <|> if h.stop = g.codeLength then some g.size else none) = some guard.stop ∧
      g.node? h.target = some guard.entry ∧
      if h.catchIndex = 0 then guard.caught = none
      else pool.className h.catchIndex = .ok (guard.caught.getD "") ∧ guard.caught ≠ some "" := by
  unfold CodeEdges.guard at hguard
  split at hguard
  · next start hstart =>
    split at hguard
    · next stop hstop =>
      split at hguard
      · next entry hentry =>
        by_cases hzero : h.catchIndex = 0
        · simp only [hzero, if_true, pure_eq_ok] at hguard
          subst hguard
          exact ⟨hstart, hstop, hentry, by rw [if_pos hzero]⟩
        · simp only [hzero, if_false, bind_eq_ok, mapError_eq_ok, pure_eq_ok] at hguard
          obtain ⟨name, hname, rfl⟩ := hguard
          refine ⟨hstart, hstop, hentry, ?_⟩
          rw [if_neg hzero, hname]
          by_cases hempty : name = "" <;> simp [hempty]
      · cases hguard
    · cases hguard
  · cases hguard

theorem mem_staticSuccessors {ns : List Nat} (hs : g.staticSuccessors ins = .ok ns) (hm : m ∈ ns) :
    ∃ offset, g.node offset = .ok m := by
  have of_targets : ∀ {targets : List Int} {ms : List Nat}, targets.mapM g.node = .ok ms →
      m ∈ ms → ∃ offset, g.node offset = .ok m := by
    intro targets ms hms hm
    obtain ⟨target, -, htarget⟩ := exists_of_mem_mapM hms hm
    exact ⟨target, htarget⟩
  cases hact : ins.action with simp only [staticSuccessors, hact] at hs
  | ret | leave | raise =>
    cases hs
    simp at hm
  | jsr | goto | switch =>
    obtain ⟨ms, hms, hs⟩ := bind_eq_ok.1 hs
    rw [← pure_eq_ok.1 hs, mem_eraseDups] at hm
    exact of_targets hms hm
  | branch =>
    simp only [bind_eq_ok, pure_eq_ok] at hs
    obtain ⟨next, hnext, ms, hms, rfl⟩ := hs
    rw [mem_eraseDups, mem_cons] at hm
    rcases hm with rfl | hm
    · exact ⟨_, hnext⟩
    · exact of_targets hms hm
  | _ =>
    obtain ⟨next, hnext, hs⟩ := bind_eq_ok.1 hs
    rw [← pure_eq_ok.1 hs, mem_singleton] at hm
    exact ⟨_, hm ▸ hnext⟩

namespace Built

variable {g : CodeEdges} {code : Array Instruction} {table : List Handler} {pool : ConstantPool}

variable {offset : Int} {n m : Nat}

theorem node?_sound (h : g.Built code table pool) (hn : g.node? offset = some n) :
    n < g.size ∧ ((g.instruction n).pos : Int) = offset := by
  rw [node?, h.nodes] at hn
  obtain ⟨ins, hins, hpos⟩ := instructionAt?_sound hn
  rw [← h.code] at hins
  have hlt : n < g.size := (Array.getElem?_eq_some_iff.1 hins).1
  rw [getElem?_code g hlt, Option.some.injEq] at hins
  exact ⟨hlt, hins ▸ hpos⟩

theorem node?_complete (h : g.Built code table pool) (hlaid : Laid code) (hn : n < g.size) :
    g.node? (g.instruction n).pos = some n := by
  rw [node?, h.nodes]
  exact hlaid.instructionAt?_complete (h.code ▸ getElem?_code g hn)

theorem node_sound (h : g.Built code table pool) (hn : g.node offset = .ok n) :
    n < g.size ∧ ((g.instruction n).pos : Int) = offset := by
  unfold node at hn
  split at hn
  · next m hm =>
    cases hn
    exact h.node?_sound hm
  · cases hn

theorem next_sound (h : g.Built code table pool) (hn : g.next n = .ok m) :
    m < g.size ∧ (g.instruction m).pos = (g.instruction n).next := by
  obtain ⟨hm, hpos⟩ := h.node_sound hn
  exact ⟨hm, by omega⟩

theorem next_eq (h : g.Built code table pool) (hlaid : Laid code) (hn : n + 1 < g.size) :
    g.next n = .ok (n + 1) := by
  have hpos := hlaid.adjacent n _ _ (h.code ▸ getElem?_code g (by omega))
    (h.code ▸ getElem?_code g hn)
  rw [next, node, ← hpos, h.node?_complete hlaid hn]

theorem next_eq_of_not_endsFlow (h : g.Built code table pool) (hlaid : Laid code) (hn : n < g.size)
    (hends : (g.instruction n).op.endsFlow = false) : n + 1 < g.size ∧ g.next n = .ok (n + 1) := by
  have hlt : n + 1 < g.size := by
    rw [size, h.code]
    exact hlaid.succ_lt (h.code ▸ getElem?_code g hn) hends
  exact ⟨hlt, h.next_eq hlaid hlt⟩

theorem successor_lt (h : g.Built code table pool) (hm : m ∈ g.successorsOf n) : m < g.size := by
  rcases Nat.lt_or_ge n g.size with hn | hn
  · obtain ⟨offset, hoffset⟩ := mem_staticSuccessors (h.successors n hn) hm
    exact (h.node_sound hoffset).1
  · simp [h.noSuccessors n hn] at hm

theorem entry_lt (h : g.Built code table pool) {guard : Guard} (hguard : guard ∈ g.guards) :
    guard.entry < g.size := by
  obtain ⟨handler, -, i, hok⟩ := h.guards guard hguard
  exact (h.node?_sound (guard_spec hok).2.2.1).1

end Built

end CodeEdges

theorem FlowGraph.built_of_build {g : FlowGraph} {table : List Handler} {pool : ConstantPool}
    {strict : Bool} (h : build code table pool strict = .ok g) :
    g.toCodeEdges.Built code table pool := by
  simp only [build, bind_eq_ok, mapError_eq_ok, pure_eq_ok] at h
  obtain ⟨edges, hedges, ⟨regions, owner⟩, -, rfl⟩ := h
  exact CodeEdges.built_of_build hedges

end Bytecode
