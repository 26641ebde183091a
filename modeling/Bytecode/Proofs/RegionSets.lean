import Mathlib.Logic.Relation
import Bytecode.Proofs.Prepared
import Bytecode.Proofs.Regions

/-!
The regions of a graph as sets of instructions.

Inside a region control goes to the next instruction or to a branch target, and a call goes on after
it. The top level is what can be reached so from the first instruction and the handlers, a subroutine
what can be reached from where it is called.

Main statement: `regions_partition`, the regions of every graph that is built are these sets, and
where two of them meet the code is rejected.
-/
namespace Bytecode

open CodeEdges List Opcode

/-! ### What the code says -/

/-- The actions that go to a branch target, calls apart. -/
def Action.branches : Action → Bool
  | .branch _ | .goto | .switch => true
  | _ => false

/-- Control goes from an instruction to another in the same region. -/
inductive Flows (code : Array Instruction) : Nat → Nat → Prop
  /-- To the next instruction, which for a call is where it returns to. -/
  | next {n : Nat} {ins : Instruction} (here : code[n]? = some ins)
      (on : ins.op.endsFlow = false) : Flows code n (n + 1)
  | branch {n m : Nat} {ins target : Instruction} (here : code[n]? = some ins)
      (branches : ins.action.branches = true) (there : code[m]? = some target)
      (mem : (target.pos : Int) ∈ ins.branchTargets) : Flows code n m

/-- An instruction calls the subroutine that begins at another. -/
def CallsTo (code : Array Instruction) (n leader : Nat) : Prop :=
  ∃ ins target, code[n]? = some ins ∧ ins.op.isJsr = true ∧ code[leader]? = some target ∧
    (target.pos : Int) ∈ ins.branchTargets

/-- The method begins at an instruction, or a handler does. -/
def EntersTopLevel (code : Array Instruction) (table : List Handler) (n : Nat) : Prop :=
  n = 0 ∨ ∃ h ∈ table, ∃ ins, code[n]? = some ins ∧ (ins.pos : Int) = h.target

/-- The instructions of the top level. -/
def InTopLevel (code : Array Instruction) (table : List Handler) (n : Nat) : Prop :=
  ∃ root, EntersTopLevel code table root ∧ Relation.ReflTransGen (Flows code) root n

/-- The instructions of the subroutine that begins at `leader`. -/
def InSubroutine (code : Array Instruction) (leader n : Nat) : Prop :=
  (∃ caller, CallsTo code caller leader) ∧ Relation.ReflTransGen (Flows code) leader n

/-- A region that is the top level. -/
structure Region.IsTopLevel (r : Region) (code : Array Instruction) (table : List Handler) :
    Prop where
  leader : r.leader = none
  members : ∀ n, n ∈ r.members ↔ InTopLevel code table n
  exit : r.exit = none
  noReturn : ∀ n ∈ r.members, ∀ ins, code[n]? = some ins → ins.op.isRet = false
  callers : r.callers = []

/-- A region that is the subroutine of its first instruction, which stores the return address that
its only return uses. -/
structure Region.IsSubroutine (r : Region) (code : Array Instruction) (first : Nat) : Prop where
  leader : r.leader = some first
  members : ∀ n, n ∈ r.members ↔ InSubroutine code first n
  returns : ∃ store exit ret, code[first]? = some store ∧
    CodeEdges.storesReference store = true ∧ r.slot = some store.index ∧
    r.exit = some exit ∧ exit ∈ r.members ∧ code[exit]? = some ret ∧ ret.op.isRet = true ∧
    ret.index = store.index ∧
    ∀ n ∈ r.members, ∀ ins, code[n]? = some ins → ins.op.isRet = true → n = exit
  callers : r.callers.Pairwise (· < ·) ∧ ∀ n, n ∈ r.callers ↔ CallsTo code n first

/-- The regions of a graph are the top level and the subroutines of the code. -/
structure FlowGraph.IsPartition (g : FlowGraph) (code : Array Instruction) (table : List Handler) :
    Prop where
  sorted : ∀ r ∈ g.regions, r.members.Pairwise (· < ·)
  disjoint : ∀ (i j : Nat) (r s : Region), g.regions[i]? = some r → g.regions[j]? = some s →
    i ≠ j → r.members.Disjoint s.members
  ownerSize : g.owner.size = code.size
  owned : ∀ n i, g.ownerOf n = some i ↔ ∃ r, g.regions[i]? = some r ∧ n ∈ r.members
  unowned : ∀ n, g.ownerOf n = none ↔ ∀ r ∈ g.regions, n ∉ r.members
  top : ∃ r, g.regions[0]? = some r ∧ r.IsTopLevel code table
  subroutine : ∀ (i : Nat) (r : Region), g.regions[i + 1]? = some r →
    ∃ first, r.IsSubroutine code first
  called : ∀ n leader, CallsTo code n leader →
    ∃ (i : Nat) (r : Region), g.regions[i]? = some r ∧ r.leader = some leader
  closed : ∀ r ∈ g.regions, ∀ n ∈ r.members, ∀ m, Flows code n m → m ∈ r.members
  calls : ∀ r ∈ g.regions, r.calls.Pairwise (· < ·) ∧ ∀ i, i ∈ r.calls ↔
    ∃ n ∈ r.members, ∃ leader s, CallsTo code n leader ∧ g.regions[i]? = some s ∧
      s.leader = some leader

/-! ### Edges -/

variable {code : Array Instruction} {n m : Nat} {table : List Handler}

theorem Flows.lt (hlaid : Laid code) (h : Flows code n m) : m < code.size := by
  cases h with
  | next here on => exact hlaid.succ_lt here on
  | branch _ _ there _ => exact (Array.getElem?_eq_some_iff.1 there).1

theorem CallsTo.lt (h : CallsTo code n m) : m < code.size := by
  obtain ⟨-, target, -, -, htarget, -⟩ := h
  exact (Array.getElem?_eq_some_iff.1 htarget).1

theorem Opcode.isJsr_iff {op : Opcode} : op.isJsr = true ↔ op.action = .jsr :=
  decide_eq_true_iff

namespace CodeEdges

variable {g : CodeEdges} {code : Array Instruction} {table : List Handler} {pool : ConstantPool}
  {n m : Nat}

section Built

variable (h : g.Built code table pool)

include h

theorem Built.instruction_eq {ins : Instruction} (hins : code[n]? = some ins) :
    g.instruction n = ins := by
  rw [← h.code] at hins
  simp [instruction, Array.getD_eq_getD_getElem?, hins]

theorem Built.size_eq : g.size = code.size := by
  rw [size, h.code]

variable (hlaid : Laid code)

include hlaid

theorem Built.node_eq_ok {offset : Int} :
    g.node offset = .ok m ↔ ∃ ins, code[m]? = some ins ∧ (ins.pos : Int) = offset := by
  constructor
  · intro hnode
    obtain ⟨hlt, hpos⟩ := h.node_sound hnode
    exact ⟨g.instruction m, h.code ▸ getElem?_code g hlt, hpos⟩
  · rintro ⟨ins, hins, rfl⟩
    rw [node, node?, h.nodes, hlaid.instructionAt?_complete hins]

theorem mem_targets {targets : List Int} {ms : List Nat} (hms : targets.mapM g.node = .ok ms) :
    m ∈ ms ↔ ∃ ins, code[m]? = some ins ∧ (ins.pos : Int) ∈ targets := by
  constructor
  · intro hm
    obtain ⟨target, htarget, hnode⟩ := exists_of_mem_mapM hms hm
    obtain ⟨ins, hins, rfl⟩ := (h.node_eq_ok hlaid).1 hnode
    exact ⟨ins, hins, htarget⟩
  · rintro ⟨ins, hins, htarget⟩
    obtain ⟨m', hm', hnode⟩ := exists_mem_of_mapM hms htarget
    have hsame : g.node ins.pos = .ok m := (h.node_eq_ok hlaid).2 ⟨ins, hins, rfl⟩
    cases hsame.symm.trans hnode
    exact hm'

theorem mem_callSites_iff : (m, n) ∈ g.callSites ↔ CallsTo code n m := by
  rw [mem_callSites]
  have hcalls : ∀ {ins : Instruction}, code[n]? = some ins → ins.op.isJsr = true →
      (m ∈ g.successorsOf n ↔ ∃ target, code[m]? = some target ∧
        (target.pos : Int) ∈ ins.branchTargets) := by
    intro ins hins hjsr
    have hlt : n < g.size := h.size_eq ▸ (Array.getElem?_eq_some_iff.1 hins).1
    have hsucc := h.successors n hlt
    have hact : ins.action = .jsr := isJsr_iff.1 hjsr
    rw [h.instruction_eq hins] at hsucc
    simp only [staticSuccessors, hact] at hsucc
    obtain ⟨ms, hms, hsucc⟩ := bind_eq_ok.1 hsucc
    rw [← pure_eq_ok.1 hsucc, mem_eraseDups]
    exact mem_targets h hlaid hms
  constructor
  · rintro ⟨hlt, hjsr, hm⟩
    have hins := h.code ▸ getElem?_code g hlt
    obtain ⟨target, htarget, hmem⟩ := (hcalls hins hjsr).1 hm
    exact ⟨_, target, hins, hjsr, htarget, hmem⟩
  · rintro ⟨ins, target, hins, hjsr, htarget, hmem⟩
    refine ⟨h.size_eq ▸ (Array.getElem?_eq_some_iff.1 hins).1, ?_, ?_⟩
    · rw [h.instruction_eq hins]
      exact hjsr
    · exact (hcalls hins hjsr).2 ⟨target, htarget, hmem⟩

theorem mem_regionSuccessors {ns : List Nat} (hn : n < g.size)
    (hns : g.regionSuccessors n = .ok ns) : m ∈ ns ↔ Flows code n m := by
  have hins : code[n]? = some (g.instruction n) := h.code ▸ getElem?_code g hn
  have hflows : Flows code n m ↔
      ((g.instruction n).op.endsFlow = false ∧ m = n + 1) ∨
        ((g.instruction n).action.branches = true ∧ ∃ target, code[m]? = some target ∧
          (target.pos : Int) ∈ (g.instruction n).branchTargets) := by
    constructor
    · rintro (⟨here, on⟩ | ⟨here, hbranches, there, hmem⟩)
      · cases here.symm.trans hins
        exact .inl ⟨on, rfl⟩
      · cases here.symm.trans hins
        exact .inr ⟨hbranches, _, there, hmem⟩
    · rintro (⟨on, rfl⟩ | ⟨hbranches, target, there, hmem⟩)
      · exact .next hins on
      · exact .branch hins hbranches there hmem
  have hnext : (g.instruction n).op.endsFlow = false → g.node (g.instruction n).next = .ok (n + 1) :=
    fun hends => (h.next_eq_of_not_endsFlow hlaid hn hends).2
  have hop : (g.instruction n).op.action = (g.instruction n).action := rfl
  have hsucc := h.successors n hn
  rw [hflows]
  unfold regionSuccessors at hns
  split at hns
  · next hjsr =>
    have hact : (g.instruction n).action = .jsr := isJsr_iff.1 hjsr
    rw [next, hnext (by simp [endsFlow, hop, hact])] at hns
    cases hns
    simp [endsFlow, hop, hact, Action.branches]
  · next hjsr =>
    cases hns
    cases hact : (g.instruction n).action with
      simp only [staticSuccessors, hact] at hsucc
    | jsr => exact absurd (isJsr_iff.2 hact) hjsr
    | ret | leave | raise =>
      simp [← Except.ok.inj hsucc, endsFlow, hop, hact, Action.branches]
    | goto | switch =>
      obtain ⟨ms, hms, hsucc⟩ := bind_eq_ok.1 hsucc
      rw [← pure_eq_ok.1 hsucc, mem_eraseDups, mem_targets h hlaid hms]
      simp [endsFlow, hop, hact, Action.branches]
    | branch =>
      simp only [hnext (by simp [endsFlow, hop, hact]), bind_eq_ok, pure_eq_ok, Except.ok.injEq,
        exists_eq_left'] at hsucc
      obtain ⟨ms, hms, hsucc⟩ := hsucc
      rw [← hsucc, mem_eraseDups, mem_cons, mem_targets h hlaid hms]
      simp [endsFlow, hop, hact, Action.branches]
    | _ =>
      rw [hnext (by simp [endsFlow, hop, hact])] at hsucc
      rw [← pure_eq_ok.1 hsucc]
      simp [endsFlow, hop, hact, Action.branches]

/-! ### Members -/

theorem entersTopLevel_iff : n ∈ 0 :: g.guards.map Guard.entry ↔ EntersTopLevel code table n := by
  rw [mem_cons, mem_map, EntersTopLevel]
  refine or_congr_right ⟨?_, ?_⟩
  · rintro ⟨guard, hguard, rfl⟩
    obtain ⟨handler, hmem, i, hok⟩ := h.guards guard hguard
    have hnode : g.node handler.target = .ok guard.entry := by
      rw [node, (guard_spec hok).2.2.1]
    exact ⟨handler, hmem, (h.node_eq_ok hlaid).1 hnode⟩
  · rintro ⟨handler, hmem, ins, hins, hpos⟩
    obtain ⟨i, guard, hguard, hok⟩ := h.guarded handler hmem
    have hnode : g.node handler.target = .ok n := (h.node_eq_ok hlaid).2 ⟨ins, hins, hpos⟩
    rw [node, (guard_spec hok).2.2.1] at hnode
    exact ⟨guard, hguard, Except.ok.inj hnode⟩

variable {flow : Array (List Nat)} {r : Region}
  (hflow : (Array.range g.size).mapM g.regionSuccessors = .ok flow)

include hflow

theorem mem_flow_iff : m ∈ flow.getD n [] ↔ Flows code n m := by
  obtain ⟨hsize, hget⟩ := getElem?_of_array_mapM hflow
  rcases Nat.lt_or_ge n g.size with hn | hn
  · obtain ⟨ns, hns, hok⟩ := hget n n (by simp [hn])
    rw [Array.getD_eq_getD_getElem?, hns]
    exact mem_regionSuccessors h hlaid hn hok
  · have hnone : flow.getD n [] = [] := by
      rw [Array.getD_eq_getD_getElem?, Array.getElem?_eq_none (by simpa [hsize] using hn)]
      rfl
    rw [hnone]
    constructor
    · intro hm
      cases hm
    · intro hm
      have hnocode : code[n]? = none := Array.getElem?_eq_none (h.size_eq ▸ hn)
      cases hm with
      | next here => simp [hnocode] at here
      | branch here => simp [hnocode] at here

theorem mem_members_iff : n ∈ g.members flow r ↔ ∃ root ∈ g.roots r, root < g.size ∧
    Relation.ReflTransGen (Flows code) root n := by
  constructor
  · intro hn
    simp only [members, mem_filter, mem_range] at hn
    refine reach_least (S := fun n => ∃ root ∈ g.roots r, root < g.size ∧
      Relation.ReflTransGen (Flows code) root n) flow g.size (g.roots r)
      (fun root hroot hlt => ?_) ?_ hn.2
    · exact ⟨root, hroot, hlt, .refl⟩
    · rintro k ⟨root, hroot, hlt, hk⟩ m hm -
      exact ⟨root, hroot, hlt, hk.tail ((mem_flow_iff h hlaid hflow).1 hm)⟩
  · rintro ⟨root, hroot, hlt, hn⟩
    induction hn with
    | refl => exact mem_members_of_root hroot hlt
    | tail _ hstep ih =>
      exact mem_members_of_flow ih ((mem_flow_iff h hlaid hflow).2 hstep)
        (h.size_eq ▸ hstep.lt hlaid)

theorem mem_members_top (hr : r.leader = none) :
    n ∈ g.members flow r ↔ InTopLevel code table n := by
  rw [mem_members_iff h hlaid hflow]
  have hroots : g.roots r = 0 :: g.guards.map Guard.entry := by rw [roots, hr]
  constructor
  · rintro ⟨root, hroot, -, hn⟩
    exact ⟨root, (entersTopLevel_iff h hlaid).1 (hroots ▸ hroot), hn⟩
  · rintro ⟨root, hroot, hn⟩
    refine ⟨root, hroots ▸ (entersTopLevel_iff h hlaid).2 hroot, ?_, hn⟩
    rcases hroot with rfl | ⟨-, -, ins, hins, -⟩
    · exact h.nonempty
    · exact h.size_eq ▸ (Array.getElem?_eq_some_iff.1 hins).1

theorem mem_members_subroutine {leader caller : Nat} (hr : r.leader = some leader)
    (hcall : CallsTo code caller leader) : n ∈ g.members flow r ↔ InSubroutine code leader n := by
  rw [mem_members_iff h hlaid hflow]
  have hroots : g.roots r = [leader] := by rw [roots, hr]
  constructor
  · rintro ⟨root, hroot, -, hn⟩
    rw [hroots, mem_singleton] at hroot
    exact ⟨⟨caller, hcall⟩, hroot ▸ hn⟩
  · rintro ⟨-, hn⟩
    exact ⟨leader, by simp [hroots], h.size_eq ▸ hcall.lt, hn⟩

end Built

/-! ### Callers and calls -/

theorem pairwise_members (flow : Array (List Nat)) (r : Region) :
    (g.members flow r).Pairwise (· < ·) :=
  pairwise_lt_range.filter _

theorem nodup_eraseDups {α : Type} [BEq α] [LawfulBEq α] (l : List α) : l.eraseDups.Nodup := by
  induction hlength : l.length using Nat.strongRecOn generalizing l with
  | ind k ih =>
    cases l with
    | nil => exact nodup_nil
    | cons a l =>
      rw [eraseDups_cons, nodup_cons]
      have hshorter : (l.filter fun b => !b == a).length < k := by
        have := length_filter_le (fun b => !b == a) l
        simp only [length_cons] at hlength
        omega
      refine ⟨?_, ih _ hshorter _ rfl⟩
      simp [mem_eraseDups]

theorem pairwise_callers (h : g.Built code table pool) (leader : Nat) :
    ((g.callSites.filter (·.1 == leader)).map Prod.snd).Pairwise (· < ·) := by
  rw [pairwise_map, pairwise_filter, callSites, pairwise_flatMap]
  refine ⟨fun n hn => ?_, pairwise_lt_range.imp ?_⟩
  · split
    · next hjsr =>
      -- A call leads to one node, so it is listed once.
      have hnodup : (g.successorsOf n).Nodup := by
        have hsucc := h.successors n (mem_range.1 hn)
        simp only [staticSuccessors, show (g.instruction n).action = _ from isJsr_iff.1 hjsr]
          at hsucc
        obtain ⟨ms, -, hsucc⟩ := bind_eq_ok.1 hsucc
        rw [← pure_eq_ok.1 hsucc]
        exact nodup_eraseDups ms
      rw [pairwise_map]
      refine hnodup.imp fun hne ha hb => ?_
      simp only [beq_iff_eq] at ha hb
      exact absurd (ha.trans hb.symm) hne
    · exact .nil
  · intro a b hab x hx y hy _ _
    have hsnd : ∀ {k : Nat} {x : Nat × Nat}, x ∈ (if (g.instruction k).op.isJsr then
        (g.successorsOf k).map (·, k) else []) → x.2 = k := by
      intro k x hx
      split at hx
      · obtain ⟨m, -, rfl⟩ := mem_map.1 hx
        rfl
      · cases hx
    rw [hsnd hx, hsnd hy]
    exact hab

theorem pairwise_mergeSort_eraseDups (l : List Nat) : l.eraseDups.mergeSort.Pairwise (· < ·) := by
  have hsorted := @pairwise_mergeSort Nat (fun a b => decide (a ≤ b)) (fun a b d hab hbd => by
      simp only [decide_eq_true_eq] at hab hbd ⊢
      omega)
    (fun a b => by simp; omega) l.eraseDups
  have hnodup : l.eraseDups.mergeSort.Nodup :=
    (mergeSort_perm l.eraseDups _).nodup_iff.2 (nodup_eraseDups l)
  refine (hsorted.and hnodup).imp fun {a b} h => ?_
  have hle : a ≤ b := by simpa using h.1
  have hne : a ≠ b := h.2
  omega

end CodeEdges

/-! ### Regions -/

namespace FlowGraph

section Build

variable {edges : CodeEdges} {flow : Array (List Nat)} {code : Array Instruction}
  {table : List Handler} {pool : ConstantPool} {start : List Region} {regions : Array Region}
  {owner : Array (Option Nat)} {i n : Nat} {r : Region}

variable (h : Grown edges flow start regions owner)

include h

theorem Grown.owner_iff :
    owner.getD n none = some i ↔ ∃ r, regions[i]? = some r ∧ n ∈ r.members := by
  rw [h.owner]
  constructor
  · rintro ⟨r₀, hr₀, hn⟩
    obtain ⟨r, hr, hcompleted⟩ := h.exists_region hr₀
    exact ⟨r, hr, hcompleted.members ▸ hn⟩
  · rintro ⟨r, hr, hn⟩
    obtain ⟨r₀, hr₀, hcompleted⟩ := h.exists_start hr
    exact ⟨r₀, hr₀, hcompleted.members ▸ hn⟩

variable (hg : edges.Built code table pool) (hstart : edges.leaders = .ok start)

include hg hstart

theorem Grown.owner_leader {leader : Nat} (hr : regions[i]? = some r)
    (hleader : r.leader = some leader) : owner.getD leader none = some i := by
  obtain ⟨r₀, hr₀, hcompleted⟩ := h.exists_start hr
  rw [hcompleted.leader] at hleader
  obtain ⟨-, -, -, hleaders⟩ := leaders_ok hstart
  obtain ⟨-, -, ⟨caller, hsite⟩, -⟩ := hleaders i r₀ leader hr₀ hleader
  have hroot : leader ∈ edges.roots r₀ := by
    rw [roots, hleader]
    exact mem_singleton_self _
  exact h.owner_of_root hr₀ hroot (hg.successor_lt (mem_callSites.1 hsite).2.2)

variable (hlaid : Laid code)

include hlaid

/-- A region calls the regions whose first instructions its calls lead to. -/
theorem Grown.mem_calls (members : List Nat) (hmembers : ∀ n ∈ members, n < edges.size) :
    i ∈ edges.callsOf (start.map (edges.withMembers flow)) { members } ↔
      ∃ n ∈ members, ∃ leader s, CallsTo code n leader ∧ regions[i]? = some s ∧
        s.leader = some leader := by
  have hcallee : ∀ {n leader}, n < edges.size →
      (leader ∈ (if (edges.instruction n).op.isJsr then edges.successorsOf n else []) ↔
        CallsTo code n leader) := by
    intro n leader hn
    rw [← mem_callSites_iff hg hlaid, mem_callSites]
    split
    · next hjsr => simp [hn, hjsr]
    · next hjsr => simp [hjsr]
  have hindex : ∀ {leader}, (start.map (edges.withMembers flow)).findIdx? (·.leader == some leader) =
      some i ↔ ∃ s, regions[i]? = some s ∧ s.leader = some leader := by
    intro leader
    rw [findIdx?_eq_some_iff_getElem]
    constructor
    · rintro ⟨hlt, hleader, -⟩
      rw [length_map] at hlt
      obtain ⟨s, hs, hcompleted⟩ := h.exists_region (getElem?_eq_getElem hlt)
      refine ⟨s, hs, hcompleted.leader.trans ?_⟩
      simpa [withMembers] using hleader
    · rintro ⟨s, hs, hleader⟩
      obtain ⟨s₀, hs₀, hcompleted⟩ := h.exists_start hs
      obtain ⟨hlt, hget⟩ := List.getElem?_eq_some_iff.1 hs₀
      refine ⟨by simpa using hlt, ?_, fun j hj hearlier => ?_⟩
      · simpa [hget, withMembers, ← hcompleted.leader] using hleader
      · -- An earlier region with this first instruction would be its owner too.
        have hlt' : j < start.length := Nat.lt_trans hj hlt
        obtain ⟨s', hs', hcompleted'⟩ := h.exists_region (getElem?_eq_getElem hlt')
        have hleader' : s'.leader = some leader :=
          hcompleted'.leader.trans (by simpa [withMembers] using hearlier)
        have howner := h.owner_leader hg hstart hs hleader
        rw [h.owner_leader hg hstart hs' hleader', Option.some.injEq] at howner
        omega
  simp only [callsOf, mem_mergeSort, mem_eraseDups, mem_filterMap, mem_flatMap, hindex]
  constructor
  · rintro ⟨leader, ⟨n, hn, hmem⟩, s, hs, hleader⟩
    exact ⟨n, hn, leader, s, (hcallee (hmembers n hn)).1 hmem, hs, hleader⟩
  · rintro ⟨n, hn, leader, s, hcall, hs, hleader⟩
    exact ⟨leader, ⟨n, hn, (hcallee (hmembers n hn)).2 hcall⟩, s, hs, hleader⟩

variable (hflow : (Array.range edges.size).mapM edges.regionSuccessors = .ok flow)

include hflow

theorem Grown.isTopLevel : ∃ r, regions[0]? = some r ∧ r.IsTopLevel code table := by
  obtain ⟨ms, rfl, -⟩ := leaders_eq hstart
  obtain ⟨r, hr, hcompleted⟩ := h.exists_region getElem?_cons_zero
  obtain ⟨hexit, hreturn⟩ := exitOf_top rfl hcompleted.exit
  refine ⟨r, hr, hcompleted.leader, fun n => ?_, hexit, fun n hn ins hins => ?_, hcompleted.callers⟩
  · rw [hcompleted.members]
    exact mem_members_top hg hlaid hflow rfl
  · rw [← hg.instruction_eq hins]
    rw [hcompleted.members] at hn
    exact hreturn n hn

theorem Grown.isSubroutine (hr : regions[i + 1]? = some r) :
    ∃ first, r.IsSubroutine code first := by
  obtain ⟨r₀, hr₀, hcompleted⟩ := h.exists_start hr
  obtain ⟨first, rfl⟩ : ∃ first, r₀ = edges.started edges.callSites first := by
    obtain ⟨ms, rfl, -⟩ := leaders_eq hstart
    rw [getElem?_cons_succ, getElem?_map, Option.map_eq_some_iff] at hr₀
    obtain ⟨first, -, rfl⟩ := hr₀
    exact ⟨first, rfl⟩
  obtain ⟨-, -, -, hleaders⟩ := leaders_ok hstart
  obtain ⟨hstores, -, ⟨caller, hsite⟩, hcallers⟩ := hleaders _ _ first hr₀ rfl
  rw [mem_callSites_iff hg hlaid] at hsite
  have hcode : ∀ {n}, n < edges.size → code[n]? = some (edges.instruction n) := fun hn =>
    hg.code ▸ getElem?_code edges hn
  obtain ⟨exit, hexit, hmem, hret, hindex, hunique⟩ :=
    exitOf_subroutine rfl hcompleted.exit
  refine ⟨first, hcompleted.leader, fun n => ?_, ?_, ?_⟩
  · rw [hcompleted.members]
    exact mem_members_subroutine hg hlaid hflow rfl hsite
  · refine ⟨_, exit, _, hcode (hg.size_eq ▸ hsite.lt), hstores, hcompleted.slot, hexit, ?_,
      hcode (lt_of_mem_members (r := edges.started edges.callSites first) hmem), hret, hindex,
      fun n hn ins hins hnret => ?_⟩
    · rw [hcompleted.members]
      exact hmem
    · rw [← hg.instruction_eq hins] at hnret
      rw [hcompleted.members] at hn
      exact hunique n hn hnret
  · rw [hcompleted.callers]
    refine ⟨pairwise_callers hg first, fun n => ?_⟩
    rw [← mem_callSites_iff hg hlaid]
    exact hcallers n

end Build

/-- The regions of a graph that is built are the sets that the code gives. -/
theorem isPartition_of_build {g : FlowGraph} {table : List Handler} {pool : ConstantPool}
    {strict : Bool} (hlaid : Laid code) (h : build code table pool strict = .ok g) :
    g.IsPartition code table := by
  simp only [build, bind_eq_ok, mapError_eq_ok, pure_eq_ok] at h
  obtain ⟨edges, hedges, ⟨regions, owner⟩, hpartition, rfl⟩ := h
  have hg := CodeEdges.built_of_build hedges
  obtain ⟨flow, start, hstart, hflow, hgrown⟩ :=
    grown_of_divide (partition_eq_ok.1 hpartition).1
  have howned : ∀ n i, owner.getD n none = some i ↔ ∃ r, regions[i]? = some r ∧ n ∈ r.members :=
    fun n i => hgrown.owner_iff
  refine
    { sorted := fun r hr => ?_
      disjoint := fun i j r s hr hs hij n hn hn' => ?_
      ownerSize := hgrown.ownerSize.trans hg.size_eq
      owned := howned
      unowned := fun n => ?_
      top := hgrown.isTopLevel hg hstart hlaid hflow
      subroutine := fun i r hr => hgrown.isSubroutine hg hstart hlaid hflow hr
      called := fun n leader hcall => ?_
      closed := fun r hr n hn m hm => ?_
      calls := fun r hr => ?_ }
  · obtain ⟨i, hi⟩ := Array.getElem?_of_mem hr
    obtain ⟨r₀, -, hcompleted⟩ := hgrown.exists_start hi
    rw [hcompleted.members]
    exact pairwise_members flow r₀
  · have howner := (howned n i).2 ⟨r, hr, hn⟩
    rw [(howned n j).2 ⟨s, hs, hn'⟩, Option.some.injEq] at howner
    exact hij howner.symm
  · show owner.getD n none = none ↔ _
    rw [Option.eq_none_iff_forall_ne_some]
    constructor
    · intro hnone r hr hn
      obtain ⟨i, hi⟩ := Array.getElem?_of_mem hr
      exact hnone i ((howned n i).2 ⟨r, hi, hn⟩)
    · intro hnone i hi
      obtain ⟨r, hr, hn⟩ := (howned n i).1 hi
      exact hnone r (Array.mem_of_getElem? hr) hn
  · obtain ⟨-, -, hsites, -⟩ := leaders_ok hstart
    obtain ⟨i, r₀, hr₀, hleader⟩ := hsites n leader ((mem_callSites_iff hg hlaid).2 hcall)
    obtain ⟨r, hr, hcompleted⟩ := hgrown.exists_region hr₀
    exact ⟨i, r, hr, hcompleted.leader.trans hleader⟩
  · obtain ⟨i, hi⟩ := Array.getElem?_of_mem hr
    obtain ⟨r₀, -, hcompleted⟩ := hgrown.exists_start hi
    rw [hcompleted.members] at hn ⊢
    exact mem_members_of_flow hn ((mem_flow_iff hg hlaid hflow).2 hm) (hg.size_eq ▸ hm.lt hlaid)
  · obtain ⟨i, hi⟩ := Array.getElem?_of_mem hr
    obtain ⟨r₀, -, hcompleted⟩ := hgrown.exists_start hi
    rw [hcompleted.members, hcompleted.calls]
    refine ⟨pairwise_mergeSort_eraseDups _, fun j => ?_⟩
    exact hgrown.mem_calls hg hstart hlaid (edges.members flow r₀) fun n =>
      lt_of_mem_members

end FlowGraph

/-- The sets of two different regions share an instruction. -/
def RegionsMeet (code : Array Instruction) (table : List Handler) : Prop :=
  (∃ leader n, InTopLevel code table n ∧ InSubroutine code leader n) ∨
    ∃ leader other n, leader ≠ other ∧ InSubroutine code leader n ∧ InSubroutine code other n

/-- An instruction of a subroutine is in a region of its own, after the top level. -/
theorem FlowGraph.IsPartition.exists_region {g : FlowGraph} (h : g.IsPartition code table)
    {leader : Nat} (hn : InSubroutine code leader n) : ∃ (i : Nat) (r : Region), 0 < i ∧
      g.regions[i]? = some r ∧ r.leader = some leader ∧ n ∈ r.members := by
  obtain ⟨top, htop, hisTop⟩ := h.top
  obtain ⟨⟨caller, hcall⟩, -⟩ := id hn
  obtain ⟨i, r, hr, hleader⟩ := h.called caller leader hcall
  cases i with
  | zero =>
    cases htop.symm.trans hr
    rw [hisTop.leader] at hleader
    cases hleader
  | succ i =>
    obtain ⟨first, hsub⟩ := h.subroutine i r hr
    cases hsub.leader.symm.trans hleader
    exact ⟨i + 1, r, Nat.succ_pos i, hr, hleader, (hsub.members n).2 hn⟩

theorem FlowGraph.IsPartition.not_regionsMeet {g : FlowGraph} (h : g.IsPartition code table) :
    ¬RegionsMeet code table := by
  obtain ⟨top, htop, hisTop⟩ := h.top
  rintro (⟨leader, n, hn, hn'⟩ | ⟨leader, other, n, hne, hn, hn'⟩)
  · obtain ⟨i, r, hpos, hr, -, hmem⟩ := h.exists_region hn'
    exact h.disjoint 0 i top r htop hr (Nat.ne_of_lt hpos) ((hisTop.members n).2 hn) hmem
  · obtain ⟨i, r, -, hr, hleader, hmem⟩ := h.exists_region hn
    obtain ⟨j, s, -, hs, hother, hmem'⟩ := h.exists_region hn'
    by_cases hij : i = j
    · subst hij
      cases hr.symm.trans hs
      rw [hleader, Option.some.injEq] at hother
      exact hne hother
    · exact h.disjoint i j r s hr hs hij hmem hmem'

/-- The regions of every graph that is built of decoded code, under an exception table that passes
its check, are the top level and the subroutines of the code; and where two of these meet, the code is
rejected. -/
theorem regions_partition (bytes : List UInt8) (code : Array Instruction) (table : List Handler)
    (pool : ConstantPool) (strict : Bool) (hcode : decode bytes = .ok code)
    (htable : ∀ h i, table[i]? = some h →
      checkHandler pool (indexOffsets code) (codeEnd code) h i = .ok ()) :
    (∀ g, FlowGraph.build code table pool strict = .ok g → g.IsPartition code table) ∧
      (RegionsMeet code table →
        ∃ why, FlowGraph.build code table pool strict = .error (.rejected why)) := by
  have hlaid := laid_of_decode hcode
  refine ⟨fun g hg => FlowGraph.isPartition_of_build hlaid hg, fun hmeet => ?_⟩
  cases hbuild : FlowGraph.build code table pool strict with
  | ok g => exact absurd hmeet (FlowGraph.isPartition_of_build hlaid hbuild).not_regionsMeet
  | error e =>
    obtain ⟨why, rfl⟩ := FlowGraph.build_rejects hlaid htable strict e hbuild
    exact ⟨why, rfl⟩

/-- A subroutine with two calls, of which no path makes the second, and a handler. -/
def calledTwice : List UInt8 :=
  -- jsr 8, return; jsr 8, return; astore_0, ret 0; pop, return
  [0xa8, 0x00, 0x08, 0xb1, 0xa8, 0x00, 0x04, 0xb1, 0x4b, 0xa9, 0x00, 0x57, 0xb1]

/-- The handler of this code. -/
def callHandler : Handler :=
  { start := 0, stop := 3, target := 11, catchIndex := 0 }

/-- A call of the instruction after it, which the top level comes to as well. -/
def callsNext : List UInt8 :=
  -- jsr 3, astore_0, ret 0
  [0xa8, 0x00, 0x03, 0x4b, 0xa9, 0x00]

theorem regions_partition_calledTwice :
    (∃ code g, decode calledTwice = .ok code ∧
      FlowGraph.build code [callHandler] .empty true = .ok g ∧ g.regions.size = 2 ∧
      g.IsPartition code [callHandler]) ∧
    ∃ code why, decode callsNext = .ok code ∧ RegionsMeet code [] ∧
      FlowGraph.build code [] .empty true = .error (.rejected why) := by
  obtain ⟨code, hcode, g, hg, _, hcheck, hsize⟩ : ∃ code, decode calledTwice = .ok code ∧
      ∃ g, FlowGraph.build code [callHandler] .empty true = .ok g ∧
      ∃ u, checkHandler .empty (indexOffsets code) (codeEnd code) callHandler 0 = .ok u ∧
      g.regions.size = 2 := by decide +kernel
  obtain ⟨code', hcode', call, hcall, target, htarget, hjsr, hends, hmem⟩ : ∃ code,
      decode callsNext = .ok code ∧ ∃ call, code[0]? = some call ∧
      ∃ target, code[1]? = some target ∧ call.op.isJsr = true ∧ call.op.endsFlow = false ∧
      (target.pos : Int) ∈ call.branchTargets := by decide +kernel
  refine ⟨⟨code, g, hcode, hg, hsize, ?_⟩, ?_⟩
  · refine (regions_partition calledTwice code [callHandler] .empty true hcode ?_).1 g hg
    intro h i hi
    obtain ⟨rfl, rfl⟩ : i = 0 ∧ h = callHandler := by
      cases i with
      | zero => exact ⟨rfl, by simpa using hi.symm⟩
      | succ i => simp at hi
    exact hcheck
  · have hmeet : RegionsMeet code' [] := by
      refine .inl ⟨1, 1, ⟨0, .inl rfl, .single (.next hcall hends)⟩, ?_, .refl⟩
      exact ⟨0, call, target, hcall, hjsr, htarget, hmem⟩
    obtain ⟨why, hwhy⟩ := (regions_partition callsNext code' [] .empty true hcode' (by simp)).2 hmeet
    exact ⟨code', why, hcode', hmeet, hwhy⟩

end Bytecode
