import Bytecode.Proofs.ClosedCode

/-!
The handlers of an instruction, read off the offsets in the exception table.

The graph keeps its handlers by the numbers of nodes, and for each node the numbers of its handlers,
which are added to it entry by entry of the table. Nodes are numbered in the order of their offsets,
so a range of offsets is a range of nodes, and the end of the code is one node more.

* `Handler.spans`: is an offset in the range of an entry?
* `CodeEdges.Serves`: a handler of the graph goes where an entry says and catches what it names;
* `handlers_by_offset`: the handlers of an instruction are the entries whose range it is in, in the
  order of the table, and under strict rules no instruction of a subroutine is in a range.
-/
namespace Bytecode

open List

/-- Is an offset in the range of an entry? The end of the range is not. -/
def Handler.spans (h : Handler) (pos : Nat) : Bool :=
  h.start ≤ pos && pos < h.stop

/-! ### The index of handlers -/

/-- Does a handler guard a node? -/
def Guard.covers (g : Guard) (node : Nat) : Bool :=
  g.start ≤ node && node < g.stop

theorem Guard.getElem?_protect (guard : Guard) (byNode : Array (List Nat)) (i n : Nat) :
    (guard.protect byNode i)[n]? =
      byNode[n]?.map fun is => if guard.covers n then is ++ [i] else is := by
  -- The nodes that are still to come, from any of them on.
  have hrange : ∀ length start (byNode : Array (List Nat)),
      ((List.range' start length).foldl (fun byNode n => byNode.modify n (· ++ [i])) byNode)[n]? =
        byNode[n]?.map fun is => if start ≤ n ∧ n < start + length then is ++ [i] else is := by
    intro length
    induction length with
    | zero =>
      intro start byNode
      simp [show ¬(start ≤ n ∧ n < start) by omega]
    | succ length ih =>
      intro start byNode
      rw [range'_succ, foldl_cons, ih, Array.getElem?_modify]
      by_cases hn : start = n
      · subst hn
        simp [Function.comp_def, show ¬start + 1 ≤ start by omega]
      · have hiff : (start + 1 ≤ n ∧ n < start + 1 + length) ↔
            (start ≤ n ∧ n < start + (length + 1)) := by omega
        simp only [hn, if_false, hiff]
  rw [protect, hrange]
  have hiff : (guard.start ≤ n ∧ n < guard.start + (guard.stop - guard.start)) ↔
      guard.covers n = true := by
    simp only [covers, Bool.and_eq_true, decide_eq_true_eq]
    omega
  simp only [hiff]

/-- The index has the numbers of the handlers that guard a node, in order. -/
theorem getElem?_foldl_protect (guards : List Guard) (k : Nat) (byNode : Array (List Nat))
    (n : Nat) :
    ((guards.zipIdx k).foldl (fun byNode (guard, i) => guard.protect byNode i) byNode)[n]? =
      byNode[n]?.map (· ++ ((guards.zipIdx k).filter (·.1.covers n)).map Prod.snd) := by
  induction guards generalizing k byNode with
  | nil => simp
  | cons guard guards ih =>
    rw [zipIdx_cons, foldl_cons, ih, Guard.getElem?_protect, filter_cons]
    cases guard.covers n <;> simp [Function.comp_def]

namespace CodeEdges

/-- A handler begins at the target of an entry and catches the class that the entry names. An entry
without a class, or with a class without a name, catches everything. -/
structure Serves (g : CodeEdges) (pool : ConstantPool) (h : Handler) (guard : Guard) : Prop where
  entry : ∃ ins, g.code[guard.entry]? = some ins ∧ (ins.pos : Int) = h.target
  any : h.catchIndex = 0 → guard.caught = none
  named : h.catchIndex ≠ 0 → pool.className h.catchIndex = .ok (guard.caught.getD "")

variable {g : CodeEdges} {code : Array Instruction} {table : List Handler} {pool : ConstantPool}

theorem guardsOf_eq (h : build code table pool = .ok g) {n : Nat} (hn : n < g.size) :
    g.guardsOf n = g.guards.filter (·.covers n) := by
  simp only [build, bind_eq_ok, pure_eq_ok, ite_eq_ok, reduceCtorEq, false_and, exists_false,
    imp_false, Bool.not_eq_true] at h
  obtain ⟨hempty, h⟩ := h
  obtain ⟨successors, -, guards, -, rfl⟩ := h hempty
  have hn : n < code.size := hn
  simp only [guardsOf, Array.getD_eq_getD_getElem?, getElem?_foldl_protect,
    Array.getElem?_replicate, if_pos hn, Option.map_some, Option.getD_some, nil_append]
  -- Each number leads back to its handler.
  rw [filterMap_map, filterMap_congr (g := some ∘ Prod.fst), filterMap_eq_map]
  · conv_rhs => rw [← zipIdx_map_fst 0 guards, filter_map]
    rfl
  · rintro ⟨guard, i⟩ hmem
    exact mem_zipIdx_iff_getElem?.1 (mem_filter.1 hmem).1

/-! ### Nodes and offsets -/

theorem Built.serves (hbuilt : g.Built code table pool) {h : Handler} {i : Nat} {guard : Guard}
    (hguard : g.guard pool h i = .ok guard) : g.Serves pool h guard := by
  obtain ⟨-, -, hentry, hcaught⟩ := guard_spec hguard
  obtain ⟨hlt, hpos⟩ := hbuilt.node?_sound hentry
  refine ⟨⟨_, getElem?_code g hlt, hpos⟩, fun hzero => ?_, fun hne => ?_⟩
  · rwa [if_pos hzero] at hcaught
  · rw [if_neg hne] at hcaught
    exact hcaught.1

theorem Built.pos_le_iff (hbuilt : g.Built code table pool) (hlaid : Laid code) {n m : Nat}
    (hn : n < g.size) (hm : m < g.size) :
    (g.instruction n).pos ≤ (g.instruction m).pos ↔ n ≤ m := by
  have hins : ∀ k < g.size, code[k]? = some (g.instruction k) := fun k hk =>
    hbuilt.code ▸ getElem?_code g hk
  rcases Nat.lt_trichotomy n m with hlt | rfl | hgt
  · have := hlaid.pos_lt hlt (hins n hn) (hins m hm)
    omega
  · omega
  · have := hlaid.pos_lt hgt (hins m hm) (hins n hn)
    omega

theorem Guards.covers_eq {h : Handler} {guard : Guard} (hguards : g.Guards h guard)
    (hbuilt : g.Built code table pool) (hlaid : Laid code) {n : Nat} (hn : n < g.size) :
    guard.covers n = h.spans (g.instruction n).pos := by
  obtain ⟨⟨hrange, hstopSize⟩, hstart, hstop, -⟩ := hguards
  have hlow := hbuilt.pos_le_iff hlaid (Nat.lt_of_lt_of_le hrange hstopSize) hn
  have hhigh : n < guard.stop ↔ ((g.instruction n).pos : Int) < h.stop := by
    rw [← hstop]
    split
    · next hend =>
      -- Every instruction begins before the end of the code.
      have hlt : (g.instruction n).pos < g.codeLength := by
        rw [codeLength, hbuilt.code]
        exact hlaid.pos_lt_codeEnd (hbuilt.code ▸ getElem?_code g hn)
      omega
    · next hend =>
      have := hbuilt.pos_le_iff hlaid (n := guard.stop) (by omega) hn
      omega
  rw [Bool.eq_iff_iff]
  simp only [Guard.covers, Handler.spans, Bool.and_eq_true, decide_eq_true_eq]
  omega

/-- The handlers of a node are the entries that have its offset, in the order of the table. -/
theorem forall₂_guardsOf (hlaid : Laid code)
    (htable : ∀ h i, table[i]? = some h →
      checkHandler pool (indexOffsets code) (codeEnd code) h i = .ok ())
    (hbuild : build code table pool = .ok g) {n : Nat} (hn : n < g.size) :
    Forall₂ (g.Serves pool) (table.filter (·.spans (g.instruction n).pos)) (g.guardsOf n) := by
  have hbuilt := built_of_build hbuild
  have hentries : Forall₂ (fun h guard => g.Serves pool h guard ∧
      h.spans (g.instruction n).pos = guard.covers n) table g.guards := by
    refine (forall₂_guards_of_build hbuild).imp ?_
    rintro h guard ⟨i, hi, hguard⟩
    have hguards := guards_of_checkHandler hbuilt hlaid hguard (htable h i hi)
    exact ⟨hbuilt.serves hguard, (hguards.covers_eq hbuilt hlaid hn).symm⟩
  rw [guardsOf_eq hbuild hn]
  have hfilter := rel_filter (p := (·.spans (g.instruction n).pos)) (q := (·.covers n))
    (fun _ _ hboth => Bool.eq_iff_iff.1 hboth.2) hentries
  exact hfilter.imp fun _ _ hboth => hboth.1

theorem guardsOf_eq_nil_of_divide (hbuild : build code table pool = .ok g)
    {regions : Array Region} {owner : Array (Option Nat)}
    (h : g.divide true = .ok (regions, owner)) {n r : Nat} (hsize : n < g.size)
    (hn : owner.getD n none = some r) (hr : 0 < r) : g.guardsOf n = [] := by
  have hnone : g.guardedNode? owner = none := by
    simp only [divide, bind_eq_ok, mapError_eq_ok, Prod.exists, if_true] at h
    obtain ⟨_, -, _, -, _, owner', -, _, -, h⟩ := h
    cases hnode : g.guardedNode? owner' with
    | none =>
      rw [hnode] at h
      obtain ⟨-, rfl⟩ := Prod.mk.inj (pure_eq_ok.1 h)
      exact hnode
    | some found =>
      rw [hnode] at h
      cases h
  simp only [guardedNode?, findSome?_eq_none_iff, Option.map_eq_none_iff,
    List.find?_eq_none, mem_range'_1] at hnone
  rw [guardsOf_eq hbuild hsize]
  refine filter_eq_nil_iff.2 fun guard hguard hcovers => ?_
  simp only [Guard.covers, Bool.and_eq_true, decide_eq_true_eq] at hcovers
  exact hnone guard hguard n (by omega) (by simp [hn, hr])

end CodeEdges

/-- The handlers of each instruction are the entries of the exception table whose range has its
offset. The table may be any that passes its check; ranges may overlap and end with the code. Under
strict rules a graph is built only of code without a subroutine instruction in a range. -/
theorem handlers_by_offset {bytes : List UInt8} {code : Array Instruction} {table : List Handler}
    {pool : ConstantPool} (hcode : decode bytes = .ok code)
    (hcheck : (table.zipIdx.forM fun (h, i) =>
      checkHandler pool (indexOffsets code) (codeEnd code) h i) = .ok ()) :
    ∃ g, CodeEdges.build code table pool = .ok g ∧ g.code = code ∧
      (∀ n ins, code[n]? = some ins →
        Forall₂ (g.Serves pool) (table.filter (·.spans ins.pos)) (g.guardsOf n)) ∧
      ∀ graph, FlowGraph.build code table pool true = .ok graph → graph.toCodeEdges = g ∧
        ∀ leader n ins, InSubroutine code leader n → code[n]? = some ins →
          ∀ h ∈ table, h.spans ins.pos = false := by
  have hlaid := laid_of_decode hcode
  have htable : ∀ h i, table[i]? = some h →
      checkHandler pool (indexOffsets code) (codeEnd code) h i = .ok () := fun h i hi =>
    forM_eq_ok.1 hcheck (h, i) (mem_zipIdx_iff_getElem?.2 hi)
  obtain ⟨g, hg⟩ := CodeEdges.exists_build hlaid htable
  have hbuilt := CodeEdges.built_of_build hg
  have hhandlers : ∀ n ins, code[n]? = some ins →
      Forall₂ (g.Serves pool) (table.filter (·.spans ins.pos)) (g.guardsOf n) := by
    intro n ins hins
    have hn : n < g.size := hbuilt.size_eq ▸ (Array.getElem?_eq_some_iff.1 hins).1
    exact hbuilt.instruction_eq hins ▸ CodeEdges.forall₂_guardsOf hlaid htable hg hn
  refine ⟨g, hg, hbuilt.code, hhandlers, fun graph hgraph => ?_⟩
  have hpart := FlowGraph.isPartition_of_build hlaid hgraph
  simp only [FlowGraph.build, hg, bind_eq_ok, mapError_eq_ok, pure_eq_ok] at hgraph
  obtain ⟨edges, hedges, ⟨regions, owner⟩, hpartition, rfl⟩ := hgraph
  cases hedges
  refine ⟨rfl, fun leader n ins hn hins => ?_⟩
  obtain ⟨i, r, hpos, hr, -, hmem⟩ := hpart.exists_region hn
  have hlt : n < g.size := hbuilt.size_eq ▸ (Array.getElem?_eq_some_iff.1 hins).1
  have hnone := CodeEdges.guardsOf_eq_nil_of_divide hg (CodeEdges.partition_eq_ok.1 hpartition).1
    hlt ((hpart.owned n i).2 ⟨r, hr, hmem⟩) hpos
  have hempty := hhandlers n ins hins
  rw [hnone, List.forall₂_nil_right_iff, filter_eq_nil_iff] at hempty
  exact fun h hh => Bool.eq_false_iff.2 (hempty h hh)

/-- Three handlers of `calledTwice`: the second covers the range of the first, and the third
guards its own first instruction up to the end of the code. -/
def callHandlers : List Handler :=
  [callHandler, ⟨0, 8, 11, 0⟩, ⟨11, 13, 11, 0⟩]

theorem handlers_by_offset_calledTwice : ∃ code g graph,
    decode calledTwice = .ok code ∧ CodeEdges.build code callHandlers .empty = .ok g ∧
      FlowGraph.build code callHandlers .empty true = .ok graph ∧ graph.toCodeEdges = g ∧
      Forall₂ (g.Serves .empty) [callHandler, ⟨0, 8, 11, 0⟩] (g.guardsOf 0) ∧
      Forall₂ (g.Serves .empty) [⟨11, 13, 11, 0⟩] (g.guardsOf 7) ∧
      InSubroutine code 4 4 ∧ ∀ h ∈ callHandlers, h.spans 8 = false := by
  obtain ⟨code, hcode, call, hcall, first, hfirst, last, hlast, ⟨hjsr, htarget, hcallPos,
      hfirstPos⟩, graph, hgraph, _, hcheck, hlastPos⟩ : ∃ code, decode calledTwice = .ok code ∧
      ∃ call, code[0]? = some call ∧ ∃ first, code[4]? = some first ∧
      ∃ last, code[7]? = some last ∧ (call.op.isJsr = true ∧
      (first.pos : Int) ∈ call.branchTargets ∧ call.pos = 0 ∧ first.pos = 8) ∧
      ∃ graph, FlowGraph.build code callHandlers .empty true = .ok graph ∧
      ∃ u, (callHandlers.zipIdx.forM fun (h, i) =>
        checkHandler .empty (indexOffsets code) (codeEnd code) h i) = .ok u ∧ last.pos = 12 := by
    decide +kernel
  obtain ⟨g, hg, -, hhandlers, hstrict⟩ := handlers_by_offset hcode hcheck
  obtain ⟨hedges, hnone⟩ := hstrict graph hgraph
  have hsub : InSubroutine code 4 4 :=
    ⟨⟨0, call, first, hcall, hjsr, hfirst, htarget⟩, .refl⟩
  refine ⟨code, g, graph, hcode, hg, hgraph, hedges, ?_, ?_, hsub, ?_⟩
  · simpa [hcallPos, callHandlers, callHandler, Handler.spans] using hhandlers 0 call hcall
  · simpa [hlastPos, callHandlers, callHandler, Handler.spans] using hhandlers 7 last hlast
  · exact hfirstPos ▸ hnone 4 4 first hsub hfirst

end Bytecode
