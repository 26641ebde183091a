import Mathlib.Data.List.Nodup
import Bytecode.Proofs.CodeLayout

/-!
The regions of a graph: the top level and the subroutines.

Main statements: `reach_closed` and `reach_least`, what is marked as reached is the least set that
holds the roots and is closed under the edges; `Located.slots`, open calls keep their return
addresses in different local variables.
-/
namespace Bytecode

open CodeEdges List

/-! ### Reachability -/

section Reach

variable {state : Array Bool × List Nat} {n m : Nat}

@[simp] theorem size_mark : (mark state n).1.size = state.1.size := by
  unfold mark
  split <;> simp

theorem mark_marked : (mark state n).1.getD m false = true ↔
    state.1.getD m false = true ∨ (m = n ∧ n < state.1.size) := by
  unfold mark
  split
  · next h =>
    obtain ⟨lt, -⟩ := h
    simp only [Array.getD_eq_getD_getElem?, Array.getElem?_set lt]
    by_cases hm : n = m
    · subst hm
      simp [lt]
    · simp [hm, Ne.symm hm]
  · next h =>
    constructor
    · exact .inl
    · rintro (hm | ⟨rfl, lt⟩)
      · exact hm
      · have hseen : state.1[m] = true := by
          cases hv : state.1[m] with
          | true => rfl
          | false => exact absurd ⟨lt, hv⟩ h
        simp [Array.getD_eq_getD_getElem?, lt, hseen]

theorem mark_work : (m ∈ state.2 → m ∈ (mark state n).2) ∧
    ((mark state n).1.getD m false = true → state.1.getD m false = true ∨
      m ∈ (mark state n).2) := by
  refine ⟨fun hm => ?_, fun hm => ?_⟩
  · unfold mark
    split
    · exact mem_cons_of_mem _ hm
    · exact hm
  · rcases mark_marked.1 hm with hm | ⟨rfl, lt⟩
    · exact .inl hm
    · unfold mark at hm ⊢
      by_cases h : ∃ lt : m < state.1.size, state.1[m] = false
      · rw [dif_pos h]
        exact .inr mem_cons_self
      · rw [dif_neg h] at hm
        exact .inl hm

theorem marks_size (ns : List Nat) (state : Array Bool × List Nat) :
    (ns.foldl mark state).1.size = state.1.size := by
  induction ns generalizing state with
  | nil => rfl
  | cons n ns ih => rw [foldl_cons, ih, size_mark]

theorem marks_marked (ns : List Nat) (state : Array Bool × List Nat) :
    (ns.foldl mark state).1.getD m false = true ↔
      state.1.getD m false = true ∨ (m ∈ ns ∧ m < state.1.size) := by
  induction ns generalizing state with
  | nil => simp
  | cons n ns ih =>
    rw [foldl_cons, ih, mark_marked, size_mark, mem_cons]
    constructor
    · rintro ((hm | ⟨rfl, lt⟩) | ⟨hm, lt⟩)
      · exact .inl hm
      · exact .inr ⟨.inl rfl, lt⟩
      · exact .inr ⟨.inr hm, lt⟩
    · rintro (hm | ⟨rfl | hm, lt⟩)
      · exact .inl (.inl hm)
      · exact .inl (.inr ⟨rfl, lt⟩)
      · exact .inr ⟨hm, lt⟩

theorem marks_work (ns : List Nat) (state : Array Bool × List Nat) :
    (m ∈ state.2 → m ∈ (ns.foldl mark state).2) ∧
      ((ns.foldl mark state).1.getD m false = true → state.1.getD m false = true ∨
        m ∈ (ns.foldl mark state).2) := by
  induction ns generalizing state with
  | nil => exact ⟨id, .inl⟩
  | cons n ns ih =>
    rw [foldl_cons]
    refine ⟨fun hm => (ih _).1 (mark_work.1 hm), fun hm => ?_⟩
    rcases (ih _).2 hm with hm | hm
    · rcases mark_work.2 hm with hm | hm
      · exact .inl hm
      · exact .inr ((ih _).1 hm)
    · exact .inr hm

theorem mem_marks_work {ns : List Nat} (hm : m ∈ (ns.foldl mark state).2) :
    m ∈ state.2 ∨ (ns.foldl mark state).1.getD m false = true := by
  induction ns generalizing state with
  | nil => exact .inl hm
  | cons n ns ih =>
    rw [foldl_cons] at hm ⊢
    rcases ih hm with hm | hm
    · unfold mark at hm
      split at hm
      · next hfresh =>
        rcases mem_cons.1 hm with rfl | hm
        · refine .inr ((marks_marked _ _).2 (.inl (mark_marked.2 (.inr ⟨rfl, hfresh.1⟩))))
        · exact .inl hm
      · exact .inl hm
    · exact .inr hm

/-- The marks keep what was marked, and are closed under the edges once every marked node whose
edges were not followed yet has been followed. -/
theorem spread_closed (flow : Array (List Nat)) (seen : Array Bool) (work : List Nat)
    (h : ∀ n, seen.getD n false = true → n ∈ work ∨
      ∀ m ∈ flow.getD n [], m < seen.size → seen.getD m false = true) :
    (spread flow seen work).size = seen.size ∧
      (∀ n, seen.getD n false = true → (spread flow seen work).getD n false = true) ∧
      ∀ n, (spread flow seen work).getD n false = true → ∀ m ∈ flow.getD n [],
        m < seen.size → (spread flow seen work).getD m false = true := by
  fun_induction spread flow seen work with
  | case1 seen =>
    refine ⟨rfl, fun _ => id, fun n hn => ?_⟩
    exact (h n hn).resolve_left (by simp)
  | case2 seen n work next ih =>
    have hsize : next.1.size = seen.size := marks_size _ _
    have hmarked : ∀ m, next.1.getD m false = true ↔
        seen.getD m false = true ∨ (m ∈ flow.getD n [] ∧ m < seen.size) := fun m =>
      marks_marked _ _
    have hwork : ∀ m, next.1.getD m false = true → seen.getD m false = true ∨ m ∈ next.2 :=
      fun m => (marks_work _ _).2
    have hkept : ∀ m, m ∈ work → m ∈ next.2 := fun m => (marks_work _ (seen, work)).1
    have hnext : ∀ k, next.1.getD k false = true → k ∈ next.2 ∨
        ∀ m ∈ flow.getD k [], m < next.1.size → next.1.getD m false = true := by
      intro k hk
      rcases hwork k hk with hk | hk
      · rcases h k hk with hmem | hclosed
        · rcases mem_cons.1 hmem with rfl | hmem
          · exact .inr fun m hm hlt => (hmarked m).2 (.inr ⟨hm, hsize ▸ hlt⟩)
          · exact .inl (hkept k hmem)
        · exact .inr fun m hm hlt => (hmarked m).2 (.inl (hclosed m hm (hsize ▸ hlt)))
      · exact .inl hk
    obtain ⟨hsize', hseen, hclosed⟩ := ih hnext
    exact ⟨hsize'.trans hsize, fun m hm => hseen m ((hmarked m).2 (.inl hm)),
      fun k hk m hm hlt => hclosed k hk m hm (hsize ▸ hlt)⟩

/-- Nothing is marked outside of a set that holds what is marked already and is closed under the
edges. -/
theorem spread_least (flow : Array (List Nat)) (seen : Array Bool) (work : List Nat)
    {S : Nat → Prop} (hclosed : ∀ n, S n → ∀ m ∈ flow.getD n [], m < seen.size → S m)
    (hseen : ∀ n, seen.getD n false = true → S n) (hwork : ∀ n ∈ work, S n) {n : Nat}
    (hn : (spread flow seen work).getD n false = true) : S n := by
  fun_induction spread flow seen work with
  | case1 seen => exact hseen n hn
  | case2 seen k work next ih =>
    have hsize : next.1.size = seen.size := marks_size _ _
    have hmarks : ∀ m, next.1.getD m false = true → S m := by
      intro m hm
      rcases (marks_marked _ _).1 hm with hm | ⟨hm, hlt⟩
      · exact hseen m hm
      · exact hclosed k (hwork k mem_cons_self) m hm hlt
    refine ih (hsize.symm ▸ hclosed) hmarks (fun m hm => ?_) hn
    rcases mem_marks_work hm with hm | hm
    · exact hwork m (mem_cons_of_mem k hm)
    · exact hmarks m hm

/-- The marked nodes contain the roots and are closed under the edges. -/
theorem reach_closed (flow : Array (List Nat)) (size : Nat) (roots : List Nat) :
    (∀ n ∈ roots, n < size → (reach flow size roots).getD n false = true) ∧
      ∀ n, (reach flow size roots).getD n false = true → ∀ m ∈ flow.getD n [],
        m < size → (reach flow size roots).getD m false = true := by
  have hnone : ∀ n, (Array.replicate size false).getD n false = false := by
    intro n
    by_cases hn : n < size <;> simp [Array.getD_eq_getD_getElem?, hn]
  have hstart : (roots.foldl mark (Array.replicate size false, [])).1.size = size := by
    rw [marks_size, Array.size_replicate]
  obtain ⟨-, hseen, hclosed⟩ := spread_closed flow
    (roots.foldl mark (Array.replicate size false, [])).1
    (roots.foldl mark (Array.replicate size false, [])).2 fun n hn => by
      rcases (marks_work _ _).2 hn with hn | hn
      · rw [hnone n] at hn
        cases hn
      · exact .inl hn
  rw [hstart] at hclosed
  refine ⟨fun n hn hlt => hseen n ?_, hclosed⟩
  rw [marks_marked]
  exact .inr ⟨hn, by simpa using hlt⟩

/-- Every set that holds the roots and is closed under the edges holds all marked nodes. -/
theorem reach_least (flow : Array (List Nat)) (size : Nat) (roots : List Nat) {S : Nat → Prop}
    (hroots : ∀ n ∈ roots, n < size → S n)
    (hclosed : ∀ n, S n → ∀ m ∈ flow.getD n [], m < size → S m) {n : Nat}
    (hn : (reach flow size roots).getD n false = true) : S n := by
  have hstart : ∀ m, (roots.foldl mark (Array.replicate size false, [])).1.getD m false = true →
      S m := by
    intro m hm
    rcases (marks_marked _ _).1 hm with hm | ⟨hm, hlt⟩
    · by_cases hlt : m < size <;> simp [Array.getD_eq_getD_getElem?, hlt] at hm
    · exact hroots m hm (by simpa using hlt)
  have hsize : (roots.foldl mark (Array.replicate size false, [])).1.size = size := by
    rw [marks_size, Array.size_replicate]
  refine spread_least flow _ _ (hsize.symm ▸ hclosed) hstart (fun m hm => ?_) hn
  rcases mem_marks_work hm with hm | hm
  · cases hm
  · exact hstart m hm

end Reach

/-! ### Members -/

namespace CodeEdges

variable {g : CodeEdges} {flow : Array (List Nat)} {r : Region} {n m : Nat}

theorem mem_callSites : (m, n) ∈ g.callSites ↔
    n < g.size ∧ (g.instruction n).op.isJsr = true ∧ m ∈ g.successorsOf n := by
  simp only [callSites, mem_flatMap, mem_range]
  constructor
  · rintro ⟨k, hk, hmem⟩
    split at hmem
    · next hjsr =>
      obtain ⟨l, hl, he⟩ := mem_map.1 hmem
      cases he
      exact ⟨hk, hjsr, hl⟩
    · cases hmem
  · rintro ⟨hn, hjsr, hm⟩
    refine ⟨n, hn, ?_⟩
    rw [if_pos hjsr]
    exact mem_map.2 ⟨m, hm, rfl⟩

theorem lt_of_mem_members (hn : n ∈ g.members flow r) : n < g.size := by
  simp only [members, mem_filter, mem_range] at hn
  exact hn.1

/-- The nodes from which the search for the members of a region begins. -/
def roots (g : CodeEdges) (r : Region) : List Nat :=
  match r.leader with
  | some leader => [leader]
  | none => 0 :: g.guards.map Guard.entry

theorem mem_members_of_root (hn : n ∈ g.roots r) (hlt : n < g.size) : n ∈ g.members flow r := by
  simp only [members, mem_filter, mem_range]
  exact ⟨hlt, (reach_closed flow g.size (g.roots r)).1 n hn hlt⟩

theorem mem_members_of_flow (hn : n ∈ g.members flow r) (hm : m ∈ flow.getD n [])
    (hlt : m < g.size) : m ∈ g.members flow r := by
  simp only [members, mem_filter, mem_range] at hn ⊢
  exact ⟨hlt, (reach_closed flow g.size (g.roots r)).2 n hn.2 m hm hlt⟩

/-! ### Owners -/

theorem owner_of_foldl (ns : List Nat) (owner : Array (Option Nat)) (region : Nat) :
    (ns.foldl (fun owner n => owner.setIfInBounds n (some region)) owner).size = owner.size ∧
      ∀ n, (ns.foldl (fun owner n => owner.setIfInBounds n (some region)) owner).getD n none =
        if n ∈ ns ∧ n < owner.size then some region else owner.getD n none := by
  induction ns generalizing owner with
  | nil => simp
  | cons k ns ih =>
    obtain ⟨hsize, hall⟩ := ih (owner.setIfInBounds k (some region))
    refine ⟨by rw [foldl_cons, hsize, Array.size_setIfInBounds], fun n => ?_⟩
    rw [foldl_cons, hall, Array.size_setIfInBounds]
    by_cases hlt : n < owner.size
    · by_cases hk : k = n
      · subst hk
        simp [Array.getD_eq_getD_getElem?, hlt]
      · simp [Array.getD_eq_getD_getElem?, hk, Ne.symm hk]
    · simp [Array.getD_eq_getD_getElem?, hlt]

variable {owner owner' : Array (Option Nat)} {rs : List Region} {strict : Bool}
  {regions : Array Region}

/-- A region takes its members, none of which had one, and no other node. -/
theorem claim_ok {region : Nat} {ns : List Nat} (h : g.claim owner region ns = .ok owner')
    (hlt : ∀ n ∈ ns, n < owner.size) :
    owner'.size = owner.size ∧ (∀ n ∈ ns, owner.getD n none = none) ∧
      ∀ n, owner'.getD n none = if n ∈ ns then some region else owner.getD n none := by
  unfold claim at h
  split at h
  · cases h
  · next hfind =>
    cases h
    obtain ⟨hsize, hall⟩ := owner_of_foldl ns owner region
    refine ⟨hsize, fun n hn => ?_, fun n => ?_⟩
    · simpa using List.find?_eq_none.1 hfind n hn
    · rw [hall]
      by_cases hn : n ∈ ns
      · rw [if_pos ⟨hn, hlt n hn⟩, if_pos hn]
      · rw [if_neg fun h => hn h.1, if_neg hn]

/-- A region as the coloring leaves it. -/
def withMembers (g : CodeEdges) (flow : Array (List Nat)) (r : Region) : Region :=
  { r with members := g.members flow r }

/-- What the coloring of some regions, of which the first has number `k`, has done. -/
structure Colored (g : CodeEdges) (flow : Array (List Nat)) (k : Nat) (rs rs' : List Region)
    (owner owner' : Array (Option Nat)) : Prop where
  regions : rs' = rs.map (g.withMembers flow)
  size : owner'.size = owner.size
  kept : ∀ n q, owner.getD n none = some q → owner'.getD n none = some q
  members : ∀ (i : Nat) (r : Region), rs[i]? = some r → ∀ n ∈ g.members flow r,
    owner'.getD n none = some (k + i)
  source : ∀ n q, owner'.getD n none = some q → owner.getD n none = some q ∨
    ∃ i r, q = k + i ∧ rs[i]? = some r ∧ n ∈ g.members flow r

theorem colored_of_color {k : Nat} {rs' : List Region} (hsize : owner.size = g.size)
    (h : g.color flow owner k rs = .ok (rs', owner')) : Colored g flow k rs rs' owner owner' := by
  induction rs generalizing owner k rs' with
  | nil =>
    cases h
    exact ⟨rfl, rfl, fun _ _ => id, by simp, fun n q hq => .inl hq⟩
  | cons r rs ih =>
    simp only [color, bind_eq_ok, Prod.exists, pure_eq_ok, Prod.mk.injEq] at h
    obtain ⟨mid, hclaim, rest, last, hcolor, rfl, rfl⟩ := h
    obtain ⟨hsize', hfree, hmid⟩ := claim_ok hclaim fun n hn => hsize ▸ lt_of_mem_members hn
    obtain ⟨hrest, hlast, hkept, hmembers, hsource⟩ := ih (hsize'.trans hsize) hcolor
    refine ⟨hrest ▸ rfl, hlast.trans hsize', fun n q hq => hkept n q ?_, ?_, fun n q hq => ?_⟩
    · rw [hmid, if_neg, hq]
      intro hn
      rw [hfree n hn] at hq
      cases hq
    · intro i r' hr' n hn
      cases i with
      | zero =>
        cases hr'
        refine hkept n k ?_
        rw [hmid, if_pos hn]
      | succ i =>
        rw [hmembers i r' (by simpa using hr') n hn]
        congr 1
        omega
    · rcases hsource n q hq with hq | ⟨i, r', rfl, hr', hn⟩
      · rw [hmid] at hq
        split at hq
        · next hn =>
          cases hq
          exact .inr ⟨0, r, rfl, rfl, hn⟩
        · exact .inl hq
      · exact .inr ⟨i + 1, r', by omega, by simpa using hr', hn⟩

/-! ### Regions -/

/-- The subroutine that begins at a node, with its calls among some. -/
def started (g : CodeEdges) (sites : List (Nat × Nat)) (leader : Nat) : Region where
  leader := some leader
  slot := some (g.instruction leader).index
  callers := (sites.filter (·.1 == leader)).map Prod.snd

/-- What is noted of some calls: the subroutines that begin at `ms`, which are those that the calls
enter, each with its own calls and in its place. -/
structure Entered (g : CodeEdges) (sites : List (Nat × Nat)) (ms : List Nat)
    (found : List Region × List (Nat × Nat)) : Prop where
  regions : found.1 = ms.map (g.started sites)
  places : ∀ m i, found.2.lookup m = some i ↔ ms[i]? = some m
  entered : ∀ m, m ∈ ms ↔ ∃ n, (m, n) ∈ sites
  stores : ∀ m ∈ ms, storesReference (g.instruction m) = true

variable {sites : List (Nat × Nat)} {ms : List Nat} {found found' : List Region × List (Nat × Nat)}

theorem started_append {leader n m : Nat} : g.started (sites ++ [(leader, n)]) m =
    if leader = m then
      { g.started sites m with callers := (g.started sites m).callers ++ [n] }
    else g.started sites m := by
  by_cases h : leader = m <;> simp [started, filter_append, h]

theorem Entered.addCaller {site : Nat × Nat} (h : g.Entered sites ms found)
    (hadd : g.addCaller found site = .ok found') :
    ∃ ms', g.Entered (sites ++ [site]) ms' found' := by
  obtain ⟨regions, byLeader⟩ := found
  obtain ⟨leader, n⟩ := site
  obtain ⟨rfl, hplaces, hentered, hstores⟩ := h
  dsimp only [CodeEdges.addCaller] at hplaces hadd
  cases hplace : byLeader.lookup leader with
  | some i =>
    simp only [hplace, Except.ok.injEq] at hadd
    subst hadd
    have hi := (hplaces leader i).1 hplace
    refine ⟨ms, ext_getElem? fun j => ?_, hplaces, fun m => ?_, hstores⟩
    · -- The place of a subroutine is its own.
      have hplaced : ms[j]? = some leader ↔ i = j := by
        rw [← hplaces, hplace, Option.some.injEq]
      rw [getElem?_modify, getElem?_map, getElem?_map]
      cases hj : ms[j]? with
      | none => rfl
      | some m =>
        rw [hj, Option.some.injEq, eq_comm] at hplaced
        simp only [Option.map_some, started_append, hplaced]
        split <;> rfl
    · rw [hentered]
      constructor
      · exact fun ⟨k, hk⟩ => ⟨k, mem_append_left _ hk⟩
      · rintro ⟨k, hk⟩
        rcases mem_append.1 hk with hk | hk
        · exact ⟨k, hk⟩
        · cases mem_singleton.1 hk
          exact (hentered leader).1 (mem_of_getElem? hi)
  | none =>
    have hnew : leader ∉ ms := by
      intro hmem
      obtain ⟨i, hi⟩ := getElem?_of_mem hmem
      cases hplace.symm.trans ((hplaces leader i).2 hi)
    simp only [hplace] at hadd
    split at hadd
    · next hfirst =>
      cases hadd
      refine ⟨ms ++ [leader], ?_, fun m i => ?_, fun m => ?_, fun m hm => ?_⟩
      · have hnone : sites.filter (·.1 == leader) = [] := by
          refine filter_eq_nil_iff.2 fun site hsite hleader => hnew ?_
          exact (hentered leader).2 ⟨site.2, by simpa [← beq_iff_eq.1 hleader] using hsite⟩
        have hold : ms.map (g.started (sites ++ [(leader, n)])) = ms.map (g.started sites) :=
          map_congr_left fun m hm =>
            started_append.trans (if_neg (ne_of_mem_of_not_mem hm hnew).symm)
        simp [hold, started, hnone]
      · rw [lookup_cons, length_map]
        by_cases hm : m = leader
        · grind
        · rw [beq_false_of_ne hm, hplaces]
          grind
      · simp [hentered, exists_or]
      · rcases mem_append.1 hm with hm | hm
        · exact hstores m hm
        · exact mem_singleton.1 hm ▸ hfirst
    · cases hadd

theorem entered_callers (h : sites.foldlM g.addCaller found = .ok found')
    {done : List (Nat × Nat)} (hfound : g.Entered done ms found) :
    ∃ ms', g.Entered (done ++ sites) ms' found' := by
  induction sites generalizing done ms found with
  | nil =>
    cases h
    exact ⟨ms, by simpa using hfound⟩
  | cons site sites ih =>
    obtain ⟨mid, hmid, h⟩ := bind_eq_ok.1 h
    obtain ⟨ms', hmid⟩ := hfound.addCaller hmid
    simpa using ih h hmid

/-- The regions are started with the top level first, and after it the subroutines that are called,
each with its calls. -/
theorem leaders_eq (h : g.leaders = .ok rs) :
    ∃ ms : List Nat, rs = {} :: ms.map (g.started g.callSites) ∧
      (∀ m, m ∈ ms ↔ ∃ n, (m, n) ∈ g.callSites) ∧
      ∀ m ∈ ms, storesReference (g.instruction m) = true := by
  obtain ⟨found, hfound, h⟩ := bind_eq_ok.1 h
  have hnone : g.Entered [] [] ([], []) := ⟨rfl, by simp, by simp, by simp⟩
  obtain ⟨ms, hregions, -, hentered, hstores⟩ := entered_callers hfound hnone
  rw [← pure_eq_ok.1 h]
  refine ⟨ms.mergeSort, ?_, fun m => mem_mergeSort.trans (hentered m), fun m hm =>
    hstores m (mem_mergeSort.1 hm)⟩
  have hsort := map_mergeSort (f := g.started g.callSites) (l := ms)
    (r := fun a b => decide (a ≤ b))
    (s := fun a b => decide (a.leader.getD 0 ≤ b.leader.getD 0)) fun _ _ _ _ => rfl
  rw [hsort, hregions]
  rfl
theorem leaders_ok (h : g.leaders = .ok rs) :
    (∀ r, rs[0]? = some r → r.leader = none) ∧ 0 < rs.length ∧
      (∀ n m, (m, n) ∈ g.callSites →
        ∃ (i : Nat) (r : Region), rs[i]? = some r ∧ r.leader = some m) ∧
      ∀ (i : Nat) (r : Region) (m : Nat), rs[i]? = some r → r.leader = some m →
        storesReference (g.instruction m) = true ∧ r.slot = some (g.instruction m).index ∧
          (∃ n, (m, n) ∈ g.callSites) ∧ ∀ n, n ∈ r.callers ↔ (m, n) ∈ g.callSites := by
  obtain ⟨ms, rfl, hentered, hstores⟩ := leaders_eq h
  refine ⟨?_, by simp, fun n m hsite => ?_, fun i r m hr hm => ?_⟩
  · rintro r ⟨⟩
    rfl
  · obtain ⟨i, hi⟩ := getElem?_of_mem ((hentered m).2 ⟨n, hsite⟩)
    refine ⟨i + 1, ?_⟩
    simp only [getElem?_cons_succ, getElem?_map, hi, Option.map_some,
      Option.some.injEq, exists_eq_left']
    rfl
  · cases i with
    | zero =>
      cases hr
      cases hm
    | succ i =>
      rw [getElem?_cons_succ, getElem?_map, Option.map_eq_some_iff] at hr
      obtain ⟨l, hl, rfl⟩ := hr
      cases hm
      have hmem := mem_of_getElem? hl
      exact ⟨hstores m hmem, rfl, (hentered m).1 hmem, fun n => by simp [started]⟩

theorem exitOf_top {exit : Option Nat} (hr : r.leader = none) (h : g.exitOf r = .ok exit) :
    exit = none ∧ ∀ n ∈ r.members, (g.instruction n).op.isRet = false := by
  simp only [exitOf, hr] at h
  split at h
  · next hnone =>
    cases h
    refine ⟨rfl, fun n hn => ?_⟩
    simpa using filter_eq_nil_iff.1 hnone n hn
  · cases h
  all_goals next heq _ => cases heq

/-- A subroutine has one return, which uses its variable. -/
theorem exitOf_subroutine {leader : Nat} {exit : Option Nat} (hr : r.leader = some leader)
    (h : g.exitOf r = .ok exit) :
    ∃ n, exit = some n ∧ n ∈ r.members ∧ (g.instruction n).op.isRet = true ∧
      (g.instruction n).index = r.slot.getD 0 ∧
      ∀ k ∈ r.members, (g.instruction k).op.isRet = true → k = n := by
  simp only [exitOf, hr] at h
  split at h
  · next heq _ => cases heq
  · cases h
  · cases h
  · next leader' n hleader hone =>
    split at h
    · next hindex =>
      cases h
      have hmem : ∀ k, k ∈ r.members ∧ (g.instruction k).op.isRet = true ↔ k = n := by
        intro k
        have hfilter : k ∈ r.members.filter (fun n => (g.instruction n).op.isRet) ↔
            k ∈ r.members ∧ (g.instruction k).op.isRet = true := mem_filter
        rw [← hfilter, hone, mem_singleton]
      obtain ⟨hn, hret⟩ := (hmem n).2 rfl
      exact ⟨n, rfl, hn, hret, hindex, fun k hk hkret => (hmem k).1 ⟨hk, hkret⟩⟩
    · cases h
  · cases h

/-- How a region of the graph comes from the one that it was started with. -/
structure Completed (g : CodeEdges) (flow : Array (List Nat)) (start : List Region)
    (r₀ r : Region) : Prop where
  leader : r.leader = r₀.leader
  slot : r.slot = r₀.slot
  callers : r.callers = r₀.callers
  members : r.members = g.members flow r₀
  exit : g.exitOf (g.withMembers flow r₀) = .ok r.exit
  calls : r.calls = g.callsOf (start.map (g.withMembers flow)) (g.withMembers flow r₀)

theorem partition_eq_ok :
    g.partition strict = .ok (regions, owner) ↔ g.divide strict = .ok (regions, owner) ∧
      g.checkCalls regions [] (regions.getD 0 {}).calls = .ok () := by
  unfold partition
  simp only [bind_eq_ok, mapError_eq_ok, exists_unit, pure_eq_ok, Prod.exists, Prod.mk.injEq]
  constructor
  · rintro ⟨regions', owner', hdivide, hcheck, rfl, rfl⟩
    exact ⟨hdivide, hcheck⟩
  · rintro ⟨hdivide, hcheck⟩
    exact ⟨regions, owner, hdivide, hcheck, rfl, rfl⟩

/-- The check of some calls passes if each of them uses a variable that is not in use, and the calls
from there pass under it. -/
theorem checkCalls_eq_ok {active calls : List Nat} :
    g.checkCalls regions active calls = .ok () ↔ ∀ callee ∈ calls, ∀ r,
      regions[callee]? = some r → r.slot.getD 0 ∉ active ∧
        g.checkCalls regions (r.slot.getD 0 :: active) r.calls = .ok () := by
  rw [checkCalls, forM_eq_forM, forM_eq_ok]
  refine forall_congr' fun callee => imp_congr_right fun _ => ?_
  split
  · next hnone => simp [hnone]
  · next r hr =>
    simp only [hr, Option.some.injEq, forall_eq']
    split
    · next hin => simp_all
    · next hout => simp_all

end CodeEdges

namespace FlowGraph

variable {g : FlowGraph}

/-- The region of a node that is reached. -/
def ownerOf (g : FlowGraph) (n : Nat) : Option Nat :=
  g.owner.getD n none

/-- The region with a number. -/
def region (g : FlowGraph) (r : Nat) : Region :=
  g.regions.getD r {}

/-- What a graph that was built says about its regions. -/
structure Partitioned (g : FlowGraph) : Prop where
  lt : ∀ {n r}, g.ownerOf n = some r → n < g.size
  top : (g.region 0).leader = none
  entry : g.ownerOf 0 = some 0
  handlers : ∀ {guard}, guard ∈ g.guards → g.ownerOf guard.entry = some 0
  /-- Edges other than calls stay in a region. -/
  flow : ∀ {n m r}, g.ownerOf n = some r → (g.instruction n).op.isJsr = false →
    m ∈ g.successorsOf n → g.ownerOf m = some r
  /-- What follows a call is in the region of the call. -/
  resume : ∀ {n m r}, g.ownerOf n = some r → (g.instruction n).op.isJsr = true →
    g.next n = .ok m → g.ownerOf m = some r
  /-- A call goes to a subroutine, which the region of the call knows. -/
  call : ∀ {n m r}, g.ownerOf n = some r → (g.instruction n).op.isJsr = true →
    m ∈ g.successorsOf n → ∃ q ∈ (g.region r).calls, (g.region q).leader = some m
  leader : ∀ {r m}, (g.region r).leader = some m → g.ownerOf m = some r ∧
    CodeEdges.storesReference (g.instruction m) = true ∧
    (g.region r).slot = some (g.instruction m).index
  callers : ∀ {r m n}, (g.region r).leader = some m → (n ∈ (g.region r).callers ↔
    n < g.size ∧ (g.instruction n).op.isJsr = true ∧ m ∈ g.successorsOf n)
  /-- A return is in a subroutine and uses its variable. -/
  back : ∀ {n r}, g.ownerOf n = some r → (g.instruction n).op.isRet = true →
    ∃ m, (g.region r).leader = some m ∧ (g.instruction n).index = (g.instruction m).index
  checked : g.checkCalls g.regions [] (g.region 0).calls = .ok ()

section Build

variable {edges : CodeEdges} {flow : Array (List Nat)} {code : Array Instruction}
  {table : List Handler} {pool : ConstantPool}

theorem mem_flow (hg : edges.Built code table pool)
    (hflow : (Array.range edges.size).mapM edges.regionSuccessors = .ok flow) {n : Nat}
    (hn : n < edges.size) :
    (∀ m, (edges.instruction n).op.isJsr = false → m ∈ edges.successorsOf n →
      m ∈ flow.getD n [] ∧ m < edges.size) ∧
    ∀ m, (edges.instruction n).op.isJsr = true → edges.next n = .ok m →
      m ∈ flow.getD n [] ∧ m < edges.size := by
  obtain ⟨ns, hns, hok⟩ := (getElem?_of_array_mapM hflow).2 n n (by simp [hn])
  have hflown : flow.getD n [] = ns := by
    rw [Array.getD_eq_getD_getElem?, hns]
    rfl
  unfold regionSuccessors at hok
  refine ⟨fun m hjsr hm => ?_, fun m hjsr hm => ?_⟩
  · rw [hjsr] at hok
    cases hok
    exact ⟨hflown ▸ hm, hg.successor_lt hm⟩
  · rw [hjsr, if_pos rfl, hm] at hok
    cases hok
    exact ⟨by simp [hflown], (hg.next_sound hm).1⟩

/-- The region that a call enters is among those that the region of the call knows. -/
theorem mem_callsOf {colored : List Region} {r : Region} {i n m : Nat} {q : Region}
    (hn : n ∈ r.members) (hjsr : (edges.instruction n).op.isJsr = true)
    (hm : m ∈ edges.successorsOf n) (hq : colored[i]? = some q) (hleader : q.leader = some m) :
    ∃ j ∈ edges.callsOf colored r, ∃ q', colored[j]? = some q' ∧ q'.leader = some m := by
  cases hfind : colored.findIdx? (·.leader == some m) with
  | none =>
    have hnone := findIdx?_eq_none_iff.1 hfind q (mem_of_getElem? hq)
    simp [hleader] at hnone
  | some j =>
    refine ⟨j, ?_, ?_⟩
    · simp only [callsOf, mem_mergeSort, mem_eraseDups, mem_filterMap, mem_flatMap]
      exact ⟨m, ⟨n, hn, by rwa [if_pos hjsr]⟩, hfind⟩
    · obtain ⟨hlt, hj, -⟩ := findIdx?_eq_some_iff_getElem.1 hfind
      exact ⟨_, getElem?_eq_getElem hlt, by simpa using hj⟩

/-- How the regions and owners come from the regions that were started with and their members. -/
structure Grown (edges : CodeEdges) (flow : Array (List Nat)) (start : List Region)
    (regions : Array Region) (owner : Array (Option Nat)) : Prop where
  regions : Forall₂ (edges.Completed flow start) start regions.toList
  ownerSize : owner.size = edges.size
  owner : ∀ n r, owner.getD n none = some r ↔
    ∃ r₀, start[r]? = some r₀ ∧ n ∈ edges.members flow r₀

theorem grown_of_divide {strict : Bool} {regions : Array Region} {owner : Array (Option Nat)}
    (h : edges.divide strict = .ok (regions, owner)) : ∃ flow start,
      edges.leaders = .ok start ∧
      (Array.range edges.size).mapM edges.regionSuccessors = .ok flow ∧
      Grown edges flow start regions owner := by
  unfold divide at h
  simp only [bind_eq_ok, mapError_eq_ok, Prod.exists] at h
  obtain ⟨start, hstart, flow, hflow, colored, owner', hcolor, last, hlast, h⟩ := h
  have hcolored := colored_of_color (by simp) hcolor
  obtain rfl : colored = start.map (edges.withMembers flow) := hcolored.regions
  obtain ⟨rfl, rfl⟩ : last.toArray = regions ∧ owner' = owner := by
    split at h
    · split at h
      · cases h
      · exact Prod.mk.inj (pure_eq_ok.1 h)
    · exact Prod.mk.inj (pure_eq_ok.1 h)
  refine ⟨flow, start, hstart, hflow, ?_, by simpa using hcolored.size,
    fun n r => ⟨fun hr => ?_, ?_⟩⟩
  · refine (List.forall₂_map_left_iff.1 (forall₂_of_mapM hlast)).imp fun r₀ r hr => ?_
    obtain ⟨exit, hexit, hr⟩ := bind_eq_ok.1 hr
    rw [← pure_eq_ok.1 hr]
    exact ⟨rfl, rfl, rfl, rfl, hexit, rfl⟩
  · rcases hcolored.source n r hr with hold | ⟨i, r₀, rfl, hr₀, hn⟩
    · by_cases hn : n < edges.size <;> simp [Array.getD_eq_getD_getElem?, hn] at hold
    · rw [Nat.zero_add]
      exact ⟨r₀, hr₀, hn⟩
  · rintro ⟨r₀, hr₀, hn⟩
    rw [hcolored.members r r₀ hr₀ n hn, Nat.zero_add]

namespace Grown

variable {start : List Region} {regions : Array Region} {owner : Array (Option Nat)}

theorem exists_start {i : Nat} {r : Region} (h : Grown edges flow start regions owner)
    (hr : regions[i]? = some r) : ∃ r₀, start[i]? = some r₀ ∧ edges.Completed flow start r₀ r :=
  exists_of_forall₂ h.regions (by simpa using hr)

theorem exists_region {i : Nat} {r₀ : Region} (h : Grown edges flow start regions owner)
    (hr₀ : start[i]? = some r₀) : ∃ r, regions[i]? = some r ∧ edges.Completed flow start r₀ r := by
  obtain ⟨r, hr, hcompleted⟩ := exists_of_forall₂ h.regions.flip hr₀
  exact ⟨r, by simpa using hr, hcompleted⟩

theorem region {i : Nat} {r₀ : Region} (h : Grown edges flow start regions owner)
    (hr₀ : start[i]? = some r₀) : edges.Completed flow start r₀ (regions.getD i {}) := by
  obtain ⟨r, hr, hcompleted⟩ := h.exists_region hr₀
  rw [Array.getD_eq_getD_getElem?, hr]
  exact hcompleted

theorem exists_of_leader (h : Grown edges flow start regions owner) {r m : Nat}
    (hm : (regions.getD r {}).leader = some m) : ∃ r₀, start[r]? = some r₀ ∧ r₀.leader = some m := by
  rw [Array.getD_eq_getD_getElem?] at hm
  cases hr : regions[r]? with
  | none =>
    rw [hr] at hm
    cases hm
  | some q =>
    obtain ⟨r₀, hr₀, hcompleted⟩ := h.exists_start hr
    rw [hr] at hm
    exact ⟨r₀, hr₀, hcompleted.leader.symm.trans hm⟩

theorem owner_of_root (h : Grown edges flow start regions owner) {r n : Nat} {r₀ : Region}
    (hr₀ : start[r]? = some r₀) (hn : n ∈ edges.roots r₀) (hlt : n < edges.size) :
    owner.getD n none = some r :=
  (h.owner n r).2 ⟨r₀, hr₀, mem_members_of_root hn hlt⟩

theorem owner_of_flow (h : Grown edges flow start regions owner) {r n m : Nat}
    (hn : owner.getD n none = some r) (hm : m ∈ flow.getD n [] ∧ m < edges.size) :
    owner.getD m none = some r := by
  obtain ⟨r₀, hr₀, hmem⟩ := (h.owner n r).1 hn
  exact (h.owner m r).2 ⟨r₀, hr₀, mem_members_of_flow hmem hm.1 hm.2⟩

theorem lt (h : Grown edges flow start regions owner) {r n : Nat}
    (hn : owner.getD n none = some r) : n < edges.size := by
  obtain ⟨r₀, -, hmem⟩ := (h.owner n r).1 hn
  exact lt_of_mem_members hmem

end Grown

theorem partitioned_of_partition {strict : Bool} {regions : Array Region}
    {owner : Array (Option Nat)} (hg : edges.Built code table pool)
    (h : edges.partition strict = .ok (regions, owner)) :
    Partitioned { edges with regions, owner } := by
  obtain ⟨hdivide, hcheck⟩ := partition_eq_ok.1 h
  obtain ⟨flow, start, hstart, hflow, hgrown⟩ := grown_of_divide hdivide
  obtain ⟨htop, hpos, hsites, hleaders⟩ := leaders_ok hstart
  have hzero : start[0]? = some start[0] := getElem?_eq_getElem hpos
  have hroots : edges.roots start[0] = 0 :: edges.guards.map Guard.entry := by
    rw [roots, htop _ hzero]
  refine
    { lt := hgrown.lt
      top := (hgrown.region hzero).leader.trans (htop _ hzero)
      entry := hgrown.owner_of_root hzero (by simp [hroots]) hg.nonempty
      handlers := fun {guard} hguard => ?_
      flow := fun hn hjsr hm => hgrown.owner_of_flow hn
        ((mem_flow hg hflow (hgrown.lt hn)).1 _ hjsr hm)
      resume := fun hn hjsr hm => hgrown.owner_of_flow hn
        ((mem_flow hg hflow (hgrown.lt hn)).2 _ hjsr hm)
      call := fun {n m r} hn hjsr hm => ?_
      leader := fun {r m} hm => ?_
      callers := fun {r m n} hm => ?_
      back := fun {n r} hn hret => ?_
      checked := hcheck }
  · refine hgrown.owner_of_root hzero ?_ (hg.entry_lt hguard)
    rw [hroots]
    exact mem_cons_of_mem _ (mem_map.2 ⟨guard, hguard, rfl⟩)
  · obtain ⟨r₀, hr₀, hmem⟩ := (hgrown.owner n r).1 hn
    obtain ⟨i, q, hq, hleader⟩ :=
      hsites n m (mem_callSites.2 ⟨hgrown.lt hn, hjsr, hm⟩)
    have hq' : (start.map (edges.withMembers flow))[i]? = some (edges.withMembers flow q) := by
      rw [getElem?_map, hq, Option.map_some]
    obtain ⟨j, hj, q', hq', hleader'⟩ :=
      mem_callsOf (r := edges.withMembers flow r₀) hmem hjsr hm hq' hleader
    rw [getElem?_map, Option.map_eq_some_iff] at hq'
    obtain ⟨q₀, hq₀, rfl⟩ := hq'
    refine ⟨j, ?_, (hgrown.region hq₀).leader.trans hleader'⟩
    show j ∈ (regions.getD r {}).calls
    rw [(hgrown.region hr₀).calls]
    exact hj
  · obtain ⟨r₀, hr₀, hleader⟩ := hgrown.exists_of_leader hm
    obtain ⟨hstores, hslot, ⟨n, hsite⟩, -⟩ := hleaders r r₀ m hr₀ hleader
    refine ⟨hgrown.owner_of_root hr₀ (by simp [roots, hleader]) ?_, hstores,
      (hgrown.region hr₀).slot.trans hslot⟩
    exact hg.successor_lt (mem_callSites.1 hsite).2.2
  · obtain ⟨r₀, hr₀, hleader⟩ := hgrown.exists_of_leader hm
    obtain ⟨-, -, -, hcallers⟩ := hleaders r r₀ m hr₀ hleader
    show n ∈ (regions.getD r {}).callers ↔ _
    rw [(hgrown.region hr₀).callers, hcallers, mem_callSites]
  · obtain ⟨r₀, hr₀, hmem⟩ := (hgrown.owner n r).1 hn
    have hregion := hgrown.region hr₀
    cases hm : r₀.leader with
    | none =>
      have hnot := (exitOf_top (r := edges.withMembers flow r₀) hm hregion.exit).2 n hmem
      cases hret.symm.trans hnot
    | some m =>
      obtain ⟨k, -, -, -, hindex, hunique⟩ :=
        exitOf_subroutine (r := edges.withMembers flow r₀) hm hregion.exit
      obtain ⟨-, hslot, -⟩ := hleaders r r₀ m hr₀ hm
      refine ⟨m, hregion.leader.trans hm, ?_⟩
      show (edges.instruction n).index = _
      rw [hunique n hmem hret, hindex]
      show r₀.slot.getD 0 = _
      rw [hslot]
      rfl

end Build

theorem partitioned_of_build {code : Array Instruction} {table : List Handler}
    {pool : ConstantPool} {strict : Bool} (h : build code table pool strict = .ok g) :
    g.Partitioned := by
  simp only [build, bind_eq_ok, mapError_eq_ok, pure_eq_ok] at h
  obtain ⟨edges, hedges, ⟨regions, owner⟩, hpartition, rfl⟩ := h
  exact partitioned_of_partition (CodeEdges.built_of_build hedges) hpartition

/-! ### Open calls -/

/-- A subroutine call that has not returned: the node of the call, and the region it entered. -/
structure OpenCall where
  site : Nat
  region : Nat
  deriving DecidableEq, Repr

/-- The local variable that holds the return address of a call. -/
def slot (g : FlowGraph) (call : OpenCall) : Nat :=
  (g.region call.region).slot.getD 0

/-- A node in its region under open calls, the innermost first: each was made in the region that
the one before it entered. -/
inductive Located (g : FlowGraph) : List OpenCall → Nat → Prop
  | top {n : Nat} (owner : g.ownerOf n = some 0) : Located g [] n
  | under {calls : List OpenCall} {site leader r n : Nat} (outer : Located g calls site)
      (jsr : (g.instruction site).op.isJsr = true) (target : leader ∈ g.successorsOf site)
      (enters : (g.region r).leader = some leader) (owner : g.ownerOf n = some r) :
      Located g (⟨site, r⟩ :: calls) n

namespace Located

variable {calls : List OpenCall} {n m : Nat}

theorem move (h : g.Located calls n) (howner : g.ownerOf m = g.ownerOf n) : g.Located calls m := by
  cases h with
  | top owner => exact .top (howner.trans owner)
  | under outer jsr target enters owner =>
    exact .under outer jsr target enters (howner.trans owner)

theorem lt (hg : g.Partitioned) (h : g.Located calls n) : n < g.size := by
  cases h with
  | top owner => exact hg.lt owner
  | under _ _ _ _ owner => exact hg.lt owner

theorem getElem?_of_leader {r m : Nat} (h : (g.region r).leader = some m) :
    g.regions[r]? = some (g.region r) := by
  unfold region at h ⊢
  rw [Array.getD_eq_getD_getElem?] at h ⊢
  cases hr : g.regions[r]? with
  | none =>
    rw [hr] at h
    cases h
  | some q => rfl

/-- Where calls are open, they use different variables, and the check of the calls of a graph goes
on from there. -/
theorem slots (hg : g.Partitioned) (h : g.Located calls n) : (calls.map g.slot).Nodup ∧
    ∃ r, g.ownerOf n = some r ∧
      g.checkCalls g.regions (calls.map g.slot) (g.region r).calls = .ok () := by
  induction h with
  | top owner => exact ⟨nodup_nil, 0, owner, hg.checked⟩
  | @under calls site leader r n outer jsr target enters owner ih =>
    obtain ⟨hnodup, q, hq, hcheck⟩ := ih
    obtain ⟨r', hr', hleader⟩ := hg.call hq jsr target
    obtain rfl : r' = r := by
      have := (hg.leader hleader).1.symm.trans (hg.leader enters).1
      exact Option.some.inj this
    obtain ⟨hfresh, hrest⟩ := checkCalls_eq_ok.1 hcheck r' hr' _ (getElem?_of_leader enters)
    refine ⟨?_, r', owner, hrest⟩
    rw [map_cons, nodup_cons]
    exact ⟨hfresh, hnodup⟩

theorem site_lt (hg : g.Partitioned) {call : OpenCall} (h : g.Located (call :: calls) n) :
    call.site < g.size := by
  cases h with
  | under outer => exact outer.lt hg

end Located

end FlowGraph

end Bytecode
