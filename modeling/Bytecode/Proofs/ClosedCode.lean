import Mathlib.Data.List.Forall2
import Bytecode.Proofs.RegionSets

/-!
Decoded code is closed: wherever control may go there is an instruction.

* `size_le_of_decodeAt`, `isTargeted_of_decodeAt`: an instruction takes no more bytes than there
  are, and a switch has a target for each of its matches;
* `decode_closed`: decoded code is closed, under every exception table that passes its check.
-/
namespace Bytecode

open Instruction List

/-! ### Numbers -/

variable {n pos : Nat} {l rest code bytes : List UInt8} {operand : Operand} {op : Opcode}
  {ins : Instruction}

theorem length_of_readWords? {ws : List Int} (h : readWords? n l = some ws) :
    ws.length = n ∧ 4 * n ≤ l.length := by
  fun_induction readWords? n l generalizing ws with
  | case1 =>
    cases h
    simp
  | case2 n _ _ _ _ rest ih =>
    obtain ⟨ws, hws, rfl⟩ := Option.map_eq_some_iff.1 h
    obtain ⟨hlength, hle⟩ := ih hws
    simp only [length_cons]
    omega
  | case3 => cases h

theorem length_of_readPairs? {ps : List (Int × Int)} (h : readPairs? n l = some ps) :
    ps.length = n ∧ 8 * n ≤ l.length := by
  fun_induction readPairs? n l generalizing ps with
  | case1 =>
    cases h
    simp
  | case2 n _ _ _ _ _ _ _ _ rest ih =>
    obtain ⟨ps, hps, rfl⟩ := Option.map_eq_some_iff.1 h
    obtain ⟨hlength, hle⟩ := ih hps
    simp only [length_cons]
    omega
  | case3 => cases h

theorem pairwise_of_ascending {l : List Int} (h : ascending l = true) : l.Pairwise (· < ·) := by
  induction l with
  | nil => exact .nil
  | cons a l ih =>
    cases l with
    | nil => exact pairwise_singleton _ _
    | cons b l =>
      simp only [ascending, Bool.and_eq_true, decide_eq_true_eq] at h
      have hl := ih h.2
      refine pairwise_cons.2 ⟨fun c hc => ?_, hl⟩
      rcases mem_cons.1 hc with rfl | hc
      · exact h.1
      · exact Int.lt_trans h.1 ((pairwise_cons.1 hl).1 c hc)

/-! ### One instruction -/

theorem table_of_decodeOperand (h : decodeOperand pos .tableSwitch rest = .ok operand) :
    ∃ otherwise low high targets, operand = .table otherwise low targets ∧ low ≤ high ∧
      targets.length = (high - low + 1).toNat ∧
      switchPadding pos + 12 + 4 * targets.length ≤ rest.length := by
  unfold decodeOperand at h
  simp only at h
  split at h
  · next otherwise low high hhead =>
    split at h
    · cases h
    · next hbounds =>
      split at h
      · next targets htargets =>
        cases h
        have hhead := length_of_readWords? hhead
        have htargets := length_of_readWords? htargets
        simp only [length_drop] at hhead htargets
        exact ⟨_, low, high, _, rfl, by omega, by simpa using htargets.1, by
          simp only [length_map]
          omega⟩
      · cases h
  · cases h

theorem lookup_of_decodeOperand (h : decodeOperand pos .lookupSwitch rest = .ok operand) :
    ∃ otherwise pairs, operand = .lookup otherwise pairs ∧
      (pairs.map Prod.fst).Pairwise (· < ·) ∧
      switchPadding pos + 8 + 8 * pairs.length ≤ rest.length := by
  unfold decodeOperand at h
  simp only at h
  split at h
  · next otherwise count hhead =>
    split at h
    · cases h
    · split at h
      · next pairs hpairs =>
        split at h
        · next hascending =>
          cases h
          have hhead := length_of_readWords? hhead
          have hpairs := length_of_readPairs? hpairs
          simp only [length_drop] at hhead hpairs
          refine ⟨_, _, rfl, ?_, ?_⟩
          · simpa [Function.comp_def] using pairwise_of_ascending hascending
          · simp only [length_map]
            omega
        · cases h
      · cases h
  · cases h

theorem operandSize_le_of_decodeOperand (h : decodeOperand pos op.format rest = .ok operand) :
    (⟨pos, op, false, operand⟩ : Instruction).operandSize ≤ rest.length := by
  have hread := h
  unfold decodeOperand at h
  split at h
  -- The calls whose last operand bytes must be zero.
  case h_11 | h_12 =>
    split at h <;> cases h
    simp [operandSize]
  case h_14 hformat =>
    rw [hformat] at hread
    obtain ⟨otherwise, low, high, targets, rfl, -, -, hle⟩ := table_of_decodeOperand hread
    exact hle
  case h_15 hformat =>
    rw [hformat] at hread
    obtain ⟨otherwise, pairs, rfl, -, hle⟩ := lookup_of_decodeOperand hread
    exact hle
  case h_16 => cases h
  all_goals
    next hformat =>
    cases h
    simp [operandSize, hformat]

theorem size_le_of_decodeAt (h : decodeAt pos code = .ok ins) : ins.size ≤ code.length := by
  obtain ⟨byte, rest, rfl, hwide | ⟨op, operand, -, hoperand, rfl⟩⟩ := decodeAt_ok h
  · obtain ⟨op, ⟨-, hrest, _, _, rfl⟩ | ⟨-, hrest, _, rfl⟩⟩ := decodeWide_ok hwide
    all_goals
      simp only [size, operandSize, if_true, length_cons]
      omega
  · have hle := operandSize_le_of_decodeOperand hoperand
    simp only [size, Bool.false_eq_true, if_false, length_cons]
    omega

/-- Where an instruction says that control goes. A branch has one target. A switch has one for each
match, after that of the other cases; the matches of a jump table follow each other without gaps,
those of pairs ascend. -/
structure Instruction.IsTargeted (ins : Instruction) : Prop where
  branch : ins.op.format = .branch ∨ ins.op.format = .branchWide →
    ∃ target, ins.branchTargets = [target]
  switch : ins.op = .tableswitch ∨ ins.op = .lookupswitch →
    ∃ otherwise, ins.branchTargets = otherwise :: ins.cases.map Prod.snd
  consecutive : ins.op = .tableswitch → ∃ low high : Int, low ≤ high ∧
    ins.cases.map Prod.fst = (List.range (high - low + 1).toNat).map fun i : Nat => low + i
  ascending : ins.op = .lookupswitch → (ins.cases.map Prod.fst).Pairwise (· < ·)

theorem isTargeted_of_decodeOperand (h : decodeOperand pos op.format rest = .ok operand) :
    (⟨pos, op, false, operand⟩ : Instruction).IsTargeted where
  branch hformat := by
    rcases hformat with hformat | hformat
    all_goals rw [show op.format = _ from hformat] at h
    · rcases rest with _ | ⟨a, _ | ⟨b, rest⟩⟩ <;> cases h
      exact ⟨_, rfl⟩
    · rcases rest with _ | ⟨a, _ | ⟨b, _ | ⟨c, _ | ⟨d, rest⟩⟩⟩⟩ <;> cases h
      exact ⟨_, rfl⟩
  switch hop := by
    rcases hop with rfl | rfl
    · obtain ⟨otherwise, low, high, targets, rfl, -⟩ := table_of_decodeOperand h
      exact ⟨otherwise, by simp [branchTargets, cases, Function.comp_def]⟩
    · obtain ⟨otherwise, pairs, rfl, -⟩ := lookup_of_decodeOperand h
      exact ⟨otherwise, rfl⟩
  consecutive hop := by
    subst hop
    obtain ⟨otherwise, low, high, targets, rfl, hle, hlength, -⟩ := table_of_decodeOperand h
    refine ⟨low, high, hle, ?_⟩
    rw [← hlength, range_eq_range', ← zipIdx_map_snd 0 targets, cases, map_map, map_map]
    rfl
  ascending hop := by
    subst hop
    obtain ⟨otherwise, pairs, rfl, hascending, -⟩ := lookup_of_decodeOperand h
    exact hascending

theorem isTargeted_of_decodeWide (h : decodeWide pos rest = .ok ins) : ins.IsTargeted := by
  -- Only increments, loads, stores and returns can be widened.
  have hformat : ins.op.format = .iinc ∨ ins.op.format = .slot := by
    obtain ⟨op, ⟨hformat, -, _, _, rfl⟩ | ⟨hformat, -, _, rfl⟩⟩ := decodeWide_ok h
    · exact .inl hformat
    · exact .inr hformat
  have hne : ∀ {op : Opcode}, op.format ≠ .iinc → op.format ≠ .slot → ins.op ≠ op := by
    rintro op hiinc hslot rfl
    exact hformat.elim hiinc hslot
  have htable : ins.op ≠ .tableswitch := hne (by decide) (by decide)
  have hlookup : ins.op ≠ .lookupswitch := hne (by decide) (by decide)
  exact
    { branch := by rcases hformat with hformat | hformat <;> simp [hformat]
      switch := fun hop => absurd hop (not_or.2 ⟨htable, hlookup⟩)
      consecutive := fun hop => absurd hop htable
      ascending := fun hop => absurd hop hlookup }

theorem isTargeted_of_decodeAt (h : decodeAt pos code = .ok ins) : ins.IsTargeted := by
  obtain ⟨byte, rest, rfl, hwide | ⟨op, operand, -, hoperand, rfl⟩⟩ := decodeAt_ok h
  · exact isTargeted_of_decodeWide hwide
  · exact isTargeted_of_decodeOperand hoperand

/-! ### All instructions -/

/-- Instructions that were read from the bytes before `pos`, one after another. -/
structure ReadUpTo (bytes : List UInt8) (code : Array Instruction) (pos : Nat) : Prop where
  tiled : Tiled code pos
  first : (code[0]?.map Instruction.pos).getD pos = 0
  each : ∀ ins ∈ code, decodeAt ins.pos (bytes.drop ins.pos) = .ok ins

theorem ReadUpTo.push {code : Array Instruction} (h : ReadUpTo bytes code pos)
    (hins : decodeAt pos (bytes.drop pos) = .ok ins) :
    ReadUpTo bytes (code.push ins) (pos + ins.size) := by
  have hpos := (pos_decodeAt hins).1
  refine ⟨?_, ?_, fun other hother => ?_⟩
  · have hpush := h.tiled.push hpos
    rwa [Instruction.next, hpos] at hpush
  · have hfirst := h.first
    rcases Nat.eq_zero_or_pos code.size with hempty | hne
    · rw [Array.size_eq_zero_iff] at hempty
      subst hempty
      simpa [hpos] using hfirst
    · rw [Array.getElem?_push, if_neg (Nat.ne_of_lt hne)]
      simpa [hne] using hfirst
  · rcases Array.mem_push.1 hother with hother | rfl
    · exact h.each other hother
    · rw [hpos]
      exact hins

theorem decodeFrom_reads {read r : Array Instruction} (h : decodeFrom read pos code = .ok r)
    (hcode : code = bytes.drop pos) (hpos : pos ≤ bytes.length) (hread : ReadUpTo bytes read pos) :
    ReadUpTo bytes r bytes.length := by
  fun_induction decodeFrom read pos code with
  | case1 read pos =>
    cases h
    have hend : pos = bytes.length :=
      Nat.le_antisymm hpos (drop_eq_nil_iff.1 hcode.symm)
    exact hend ▸ hread
  | case2 => cases h
  | case3 read pos byte rest ins hins _ ih =>
    -- The instruction lies within the bytes, so what is left are the bytes from its end on.
    have hsize := size_le_of_decodeAt hins
    rw [hcode] at hins hsize ih
    rw [length_drop] at hsize
    exact ih (hcode ▸ h) (by rw [drop_drop]) (by omega) (hread.push hins)

/-- Code that is closed: its instructions tile the bytes, and where one sends control there is
another. -/
structure IsClosedCode (bytes : List UInt8) (code : Array Instruction) : Prop where
  first : code[0]?.map Instruction.pos = some 0
  adjacent : ∀ n a b, code[n]? = some a → code[n + 1]? = some b → b.pos = a.pos + a.size
  sized : ∀ ins ∈ code, 1 ≤ ins.size
  last : code.back?.map Instruction.next = some bytes.length
  read : ∀ ins ∈ code, decodeAt ins.pos (bytes.drop ins.pos) = .ok ins
  notWide : ∀ ins ∈ code, ins.op ≠ .wide
  targeted : ∀ ins ∈ code, ins.IsTargeted
  branches : ∀ ins ∈ code, ∀ target ∈ ins.branchTargets, ∃ other ∈ code, target = other.pos
  falls : ∀ ins ∈ code, ins.op.endsFlow = false ∨ ins.op.isJsr = true →
    ∃ other ∈ code, other.pos = ins.next

theorem isClosedCode_of_decode {code : Array Instruction} (h : decode bytes = .ok code) :
    IsClosedCode bytes code := by
  have hlaid := laid_of_decode h
  have hnil : ReadUpTo bytes #[] 0 := ⟨⟨by simp, by simp⟩, rfl, by simp⟩
  have hread := decodeFrom_reads (decodeFrom_of_decode h) (by simp) (Nat.zero_le _) hnil
  have hne := hlaid.nonempty
  refine
    { first := ?_
      adjacent := hread.tiled.adjacent
      sized := fun ins _ => ins.size_pos
      last := ?_
      read := hread.each
      notWide := fun ins hins hop => hlaid.notWide ins hins (hop ▸ rfl)
      targeted := fun ins hins => isTargeted_of_decodeAt (hread.each ins hins)
      branches := hlaid.branches
      falls := fun ins hins hflow => ?_ }
  · simpa [hne] using hread.first
  · have hback : code.back? = some code[code.size - 1] := by
      rw [Array.back?_eq_getElem?, Array.getElem?_eq_getElem (by omega)]
    rw [hback, Option.map_some, hread.tiled.stop _ hback]
  · have hends : ins.op.endsFlow = false := by
      rcases hflow with hends | hjsr
      · exact hends
      · simp [Opcode.endsFlow, Opcode.isJsr_iff.1 hjsr]
    obtain ⟨n, hn⟩ := Array.getElem?_of_mem hins
    have hlt := hlaid.succ_lt hn hends
    exact ⟨code[n + 1], Array.getElem_mem hlt,
      hlaid.adjacent n ins _ hn (Array.getElem?_eq_getElem hlt)⟩

/-! ### The graph -/

namespace CodeEdges

/-- A handler in node numbers is the entry of the exception table: it guards some nodes, from the
one at its start up to the one at its stop or to the end of the code. -/
structure Guards (g : CodeEdges) (h : Handler) (guard : Guard) : Prop where
  range : guard.start < guard.stop ∧ guard.stop ≤ g.size
  start : ((g.instruction guard.start).pos : Int) = h.start
  stop : (if guard.stop = g.size then g.codeLength else (g.instruction guard.stop).pos) = h.stop
  entry : guard.entry < g.size ∧ ((g.instruction guard.entry).pos : Int) = h.target

/-- A graph all of whose edges are there: each node has its successors, in all of the code and in
its region, and each entry of the exception table its handler. -/
structure IsClosed (g : CodeEdges) (table : List Handler) : Prop where
  successors : ∀ n < g.size, ∃ ms, g.staticSuccessors (g.instruction n) = .ok ms ∧
    g.successorsOf n = ms ∧ ms.Nodup ∧ ∀ m ∈ ms, m < g.size
  region : ∀ n < g.size, ∃ ms, g.regionSuccessors n = .ok ms ∧ ms.Nodup ∧ ∀ m ∈ ms, m < g.size
  guards : Forall₂ g.Guards table g.guards

variable {g : CodeEdges} {table : List Handler} {pool : ConstantPool}

theorem nodup_staticSuccessors {ns : List Nat} (h : g.staticSuccessors ins = .ok ns) :
    ns.Nodup := by
  cases hact : ins.action with simp only [staticSuccessors, hact] at h
  | ret | leave | raise =>
    cases h
    exact .nil
  | jsr | goto | switch =>
    obtain ⟨ms, -, h⟩ := bind_eq_ok.1 h
    rw [← pure_eq_ok.1 h]
    exact nodup_eraseDups ms
  | branch =>
    simp only [bind_eq_ok, pure_eq_ok] at h
    obtain ⟨next, -, ms, -, rfl⟩ := h
    exact nodup_eraseDups _
  | _ =>
    obtain ⟨next, -, h⟩ := bind_eq_ok.1 h
    rw [← pure_eq_ok.1 h]
    exact pairwise_singleton _ _

/-- The handlers are the entries of the exception table, in order. -/
theorem forall₂_guards_of_build {code : Array Instruction} (h : build code table pool = .ok g) :
    Forall₂ (fun handler guard => ∃ i, table[i]? = some handler ∧
      g.guard pool handler i = .ok guard) table g.guards := by
  simp only [build, bind_eq_ok, pure_eq_ok, ite_eq_ok, reduceCtorEq, false_and, exists_false,
    imp_false, Bool.not_eq_true] at h
  obtain ⟨hempty, h⟩ := h
  obtain ⟨successors, -, guards, hguards, rfl⟩ := h hempty
  obtain ⟨hlength, hguard⟩ := List.forall₂_iff_get.1 (forall₂_of_mapM hguards)
  rw [length_zipIdx] at hlength
  refine List.forall₂_iff_get.2 ⟨hlength, fun i hi hi' => ⟨i, getElem?_eq_getElem hi, ?_⟩⟩
  have hget := hguard i (by simpa using hi) hi'
  simp only [get_eq_getElem, getElem_zipIdx, Nat.zero_add] at hget
  exact hget

theorem guards_of_checkHandler {code : Array Instruction} (hbuilt : g.Built code table pool)
    (hlaid : Laid code) {h : Handler} {i : Nat} {guard : Guard}
    (hguard : g.guard pool h i = .ok guard)
    (hcheck : checkHandler pool (indexOffsets code) (codeEnd code) h i = .ok ()) :
    g.Guards h guard := by
  have hbounds : h.start < h.stop := by
    simp only [checkHandler, ite_error_bind_eq_ok, ge_iff_le, Int.not_le] at hcheck
    exact hcheck.2.2.1
  obtain ⟨hstart, hstop, hentry, -⟩ := guard_spec hguard
  obtain ⟨hstart, hstartPos⟩ := hbuilt.node?_sound hstart
  have hentry := hbuilt.node?_sound hentry
  cases hnode : g.node? h.stop with
  | none =>
    obtain ⟨hend, hsize⟩ : h.stop = g.codeLength ∧ g.size = guard.stop := by
      simpa [hnode] using hstop
    exact ⟨by omega, hstartPos, by rw [if_pos hsize.symm, hend], hentry⟩
  | some stop =>
    obtain rfl : stop = guard.stop := by simpa [hnode] using hstop
    obtain ⟨hstop, hstopPos⟩ := hbuilt.node?_sound hnode
    have hlt : guard.start < guard.stop := by
      -- Nodes are numbered by their offsets, which the check has compared.
      rcases Nat.lt_trichotomy guard.start guard.stop with hlt | heq | hgt
      · exact hlt
      · rw [heq] at hstartPos
        omega
      · have := hlaid.pos_lt hgt (hbuilt.code ▸ getElem?_code g hstop)
          (hbuilt.code ▸ getElem?_code g hstart)
        omega
    exact ⟨⟨hlt, by omega⟩, hstartPos, by rw [if_neg (by omega), hstopPos], hentry⟩

/-- Laid out code has a closed graph under an exception table whose entries pass their check. -/
theorem isClosed_of_build {code : Array Instruction} (hlaid : Laid code)
    (htable : ∀ h i, table[i]? = some h →
      checkHandler pool (indexOffsets code) (codeEnd code) h i = .ok ())
    (h : build code table pool = .ok g) : g.IsClosed table := by
  have hbuilt := built_of_build h
  have hsuccessors : ∀ n < g.size, (g.successorsOf n).Nodup := fun n hn =>
    nodup_staticSuccessors (hbuilt.successors n hn)
  refine
    { successors := fun n hn => ⟨_, hbuilt.successors n hn, rfl, hsuccessors n hn,
        fun m hm => hbuilt.successor_lt hm⟩
      region := fun n hn => ?_
      guards := ?_ }
  · unfold regionSuccessors
    split
    · next hjsr =>
      have hends : (g.instruction n).op.endsFlow = false := by
        simp [Opcode.endsFlow, Opcode.isJsr_iff.1 hjsr]
      obtain ⟨hlt, hnext⟩ := hbuilt.next_eq_of_not_endsFlow hlaid hn hends
      exact ⟨[n + 1], by simp [hnext], pairwise_singleton _ _, by simpa using hlt⟩
    · exact ⟨_, rfl, hsuccessors n hn, fun m hm => hbuilt.successor_lt hm⟩
  · refine (forall₂_guards_of_build h).imp fun handler guard hguard => ?_
    obtain ⟨i, hi, hguard⟩ := hguard
    exact guards_of_checkHandler hbuilt hlaid hguard (htable handler i hi)

end CodeEdges

/-- Decoded code is a closed graph, under every exception table that passes its check. -/
theorem decode_closed {bytes : List UInt8} {code : Array Instruction}
    (h : decode bytes = .ok code) : IsClosedCode bytes code ∧
      ∀ (pool : ConstantPool) (table : List Handler),
        (table.zipIdx.forM fun (handler, i) =>
          checkHandler pool (indexOffsets code) (codeEnd code) handler i) = .ok () →
        ∃ g, CodeEdges.build code table pool = .ok g ∧ g.code = code ∧ g.IsClosed table := by
  have hlaid := laid_of_decode h
  refine ⟨isClosedCode_of_decode h, fun pool table hcheck => ?_⟩
  have htable : ∀ h i, table[i]? = some h →
      checkHandler pool (indexOffsets code) (codeEnd code) h i = .ok () := fun h i hi =>
    forM_eq_ok.1 hcheck (h, i) (mem_zipIdx_iff_getElem?.2 hi)
  obtain ⟨g, hg⟩ := CodeEdges.exists_build hlaid htable
  exact ⟨g, hg, (CodeEdges.built_of_build hg).code, CodeEdges.isClosed_of_build hlaid htable hg⟩

/-- A call, a jump table with matches from -1 to 0, a widened increment, and the subroutine. -/
def callAndSwitch : List UInt8 :=
  [0xa8, 0x00, 0x23, 0x03,
    0xaa, 0, 0, 0, 0, 0, 0, 0x18, 0xff, 0xff, 0xff, 0xff, 0, 0, 0, 0, 0, 0, 0, 0x1e, 0, 0, 0, 0x18,
    0xc4, 0x84, 0x00, 0x01, 0x00, 0x05, 0xb1, 0x4c, 0xa9, 0x01]

theorem decode_closed_callAndSwitch : ∃ code g, decode callAndSwitch = .ok code ∧
    IsClosedCode callAndSwitch code ∧ code.size = 7 ∧
    CodeEdges.build code [⟨3, 38, 34, 0⟩] .empty = .ok g ∧ g.IsClosed [⟨3, 38, 34, 0⟩] := by
  have hchecked : ((decode callAndSwitch).mapError StaticFault.code >>= fun code =>
      ([⟨3, 38, 34, 0⟩] : List Handler).zipIdx.forM (fun (handler, i) =>
        checkHandler .empty (indexOffsets code) (codeEnd code) handler i) >>= fun _ =>
      .ok code.size) = .ok 7 := by
    decide +kernel
  obtain ⟨code, hcode, hchecked⟩ := bind_eq_ok.1 hchecked
  obtain ⟨⟨⟩, htable, hsize⟩ := bind_eq_ok.1 hchecked
  have hcode := mapError_eq_ok.1 hcode
  obtain ⟨hclosed, hgraph⟩ := decode_closed hcode
  obtain ⟨g, hbuild, -, hg⟩ := hgraph .empty _ htable
  exact ⟨code, g, hcode, hclosed, Except.ok.inj hsize, hbuild, hg⟩

end Bytecode
