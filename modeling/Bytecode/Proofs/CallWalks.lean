import Mathlib.Data.Finset.Basic
import Mathlib.Data.List.Chain
import Bytecode.Proofs.RegionSets

/-!
The ban on recursive subroutines is exact.

The check follows the calls from the top level, without marks on the regions it has been to. It ends
all the same, since under each call one variable more is in use; and it passes exactly if no walk
along the calls meets a variable twice.

* `visits_checkCalls`, `Visits.unique`: the walk that keeps one set of variables ends as the check
  does, with the set as it was;
* `recursion_ban_exact`: the whole of it, for the regions of a graph.
-/
namespace Bytecode.CodeEdges

open List

variable {g : CodeEdges} {regions : Array Region}

/-- One region calls another. -/
def Calls (regions : Array Region) (a b : Nat) : Prop :=
  b ∈ (regions.getD a {}).calls

/-- The variable in which a region keeps its return address. -/
def slotAt (regions : Array Region) (r : Nat) : Nat :=
  (regions.getD r {}).slot.getD 0

/-- Every region that is called is there, and keeps its return address in a variable. -/
def CallsSubroutines (regions : Array Region) : Prop :=
  ∀ a b, Calls regions a b → ∃ r, regions[b]? = some r ∧ r.slot = some (slotAt regions b)

theorem getD_of_getElem? {q : Nat} {r : Region} (h : regions[q]? = some r) :
    regions.getD q {} = r := by
  rw [Array.getD_eq_getD_getElem?, h]
  rfl

theorem callsSubroutines_of_divide {strict : Bool} {owner : Array (Option Nat)}
    (h : g.divide strict = .ok (regions, owner)) : CallsSubroutines regions := by
  obtain ⟨flow, start, hstart, -, hgrown⟩ := FlowGraph.grown_of_divide h
  intro a b hcall
  unfold Calls at hcall
  cases ha : regions[a]? with
  | none =>
    rw [Array.getD_eq_getD_getElem?, ha] at hcall
    cases hcall
  | some r =>
    obtain ⟨r₀, -, hcompleted⟩ := hgrown.exists_start ha
    rw [getD_of_getElem? ha, hcompleted.calls] at hcall
    simp only [callsOf, mem_mergeSort, mem_eraseDups, mem_filterMap] at hcall
    -- A call was looked up by the first node of what it calls.
    obtain ⟨leader, -, hindex⟩ := hcall
    obtain ⟨hlt, hleader, -⟩ := findIdx?_eq_some_iff_getElem.1 hindex
    rw [length_map] at hlt
    have hfound : start[b]? = some start[b] := getElem?_eq_getElem hlt
    have hleader : start[b].leader = some leader := by simpa [withMembers] using hleader
    obtain ⟨s, hs, hcompleted'⟩ := hgrown.exists_region hfound
    obtain ⟨-, -, -, hleaders⟩ := leaders_ok hstart
    have hslot := hcompleted'.slot.trans (hleaders b start[b] leader hfound hleader).2.1
    refine ⟨s, hs, ?_⟩
    rw [slotAt, getD_of_getElem? hs, hslot]
    rfl

/-! ### The walk with one set -/

/-- A walk along calls with one set of the variables in use: a variable is put in before its
subroutine is entered, and taken out after it. The walk ends with the set or with a fault. -/
inductive Visits (g : CodeEdges) (regions : Array Region) :
    Finset Nat → List Nat → Except SubroutineFault (Finset Nat) → Prop
  | done {active : Finset Nat} : Visits g regions active [] (.ok active)
  | refused {active : Finset Nat} {callee : Nat} {rest : List Nat}
      (used : slotAt regions callee ∈ active) :
      Visits g regions active (callee :: rest) (.error (.recursive
        (g.instruction ((regions.getD callee {}).leader.getD 0)).pos (slotAt regions callee)))
  | fails {active : Finset Nat} {callee : Nat} {rest : List Nat} {fault : SubroutineFault}
      (free : slotAt regions callee ∉ active)
      (inner : Visits g regions (insert (slotAt regions callee) active)
        (regions.getD callee {}).calls (.error fault)) :
      Visits g regions active (callee :: rest) (.error fault)
  | returns {active after : Finset Nat} {callee : Nat} {rest : List Nat}
      {outcome : Except SubroutineFault (Finset Nat)} (free : slotAt regions callee ∉ active)
      (inner : Visits g regions (insert (slotAt regions callee) active)
        (regions.getD callee {}).calls (.ok after))
      (outer : Visits g regions (after.erase (slotAt regions callee)) rest outcome) :
      Visits g regions active (callee :: rest) outcome

theorem Visits.unique {active : Finset Nat} {calls : List Nat}
    {outcome outcome' : Except SubroutineFault (Finset Nat)}
    (h : Visits g regions active calls outcome) (h' : Visits g regions active calls outcome') :
    outcome = outcome' := by
  induction h generalizing outcome' with
  | done => cases h' with | done => rfl
  | refused used =>
    cases h' with
    | refused => rfl
    | fails free => exact absurd used free
    | returns free => exact absurd used free
  | fails free _ ih =>
    cases h' with
    | refused used => exact absurd used free
    | fails _ inner => exact ih inner
    | returns _ inner => cases ih inner
  | returns free _ _ ih ihouter =>
    cases h' with
    | refused used => exact absurd used free
    | fails _ inner => cases ih inner
    | returns _ inner outer =>
      cases ih inner
      exact ihouter outer

theorem checkCalls_nil (active : List Nat) : g.checkCalls regions active [] = .ok () := by
  rw [checkCalls]
  rfl

theorem checkCalls_cons {active rest : List Nat} {callee : Nat} {r : Region}
    (hr : regions[callee]? = some r) :
    g.checkCalls regions active (callee :: rest) =
      if r.slot.getD 0 ∈ active then
        .error (.recursive (g.instruction (r.leader.getD 0)).pos (r.slot.getD 0))
      else (do
        g.checkCalls regions (r.slot.getD 0 :: active) r.calls
        g.checkCalls regions active rest) := by
  rw [checkCalls, checkCalls.eq_def g regions active rest, forM_eq_forM, forM_cons]
  split
  · next hnone => cases hr.symm.trans hnone
  · next r' hr' =>
    cases hr.symm.trans hr'
    by_cases hin : r.slot.getD 0 ∈ active
    · rw [dif_pos (by simpa using hin), if_pos hin]
      rfl
    · rw [dif_neg (by simpa using hin), if_neg hin]

/-- The walk with one set ends as the check does, and leaves the set as it was. -/
theorem visits_checkCalls (hregions : CallsSubroutines regions) (active calls : List Nat)
    (hcalls : ∀ q ∈ calls, ∃ r, regions[q]? = some r) :
    Visits g regions active.toFinset calls
      ((g.checkCalls regions active calls).map fun _ => active.toFinset) := by
  induction active, calls using checkCalls.induct regions with
  | case1 active calls ih =>
    -- `ih` is about the calls under each of these, which one variable more is in use for.
    induction calls with
    | nil =>
      rw [checkCalls_nil]
      exact .done
    | cons callee rest ihrest =>
      obtain ⟨r, hr⟩ := hcalls callee mem_cons_self
      have hrest := ihrest fun q hq => hcalls q (mem_cons_of_mem callee hq)
      have hslot : slotAt regions callee = r.slot.getD 0 := by
        rw [slotAt, getD_of_getElem? hr]
      have hinner : ∀ q ∈ r.calls, ∃ s, regions[q]? = some s := by
        intro q hq
        obtain ⟨s, hs, -⟩ := hregions callee q (by rwa [Calls, getD_of_getElem? hr])
        exact ⟨s, hs⟩
      rw [checkCalls_cons hr]
      by_cases hin : r.slot.getD 0 ∈ active
      · rw [if_pos hin, ← hslot, ← getD_of_getElem? hr]
        exact .refused (by rw [hslot]; simpa using hin)
      · have hfree : slotAt regions callee ∉ active.toFinset := by rw [hslot]; simpa using hin
        have hunder := ih callee r hr (by simpa using hin) hinner
        rw [toFinset_cons, ← hslot] at hunder
        rw [if_neg hin, ← hslot]
        cases hcheck : g.checkCalls regions (slotAt regions callee :: active) r.calls with
        | error fault =>
          rw [hcheck] at hunder
          exact .fails hfree (by rw [getD_of_getElem? hr]; exact hunder)
        | ok =>
          rw [hcheck] at hunder
          -- What the call put in is taken out, so the other calls start from the same set.
          refine .returns hfree (by rw [getD_of_getElem? hr]; exact hunder) ?_
          rw [Finset.erase_insert hfree]
          exact hrest

/-! ### Walks -/

/-- The check of some calls passes if no walk that starts with one of them meets a variable twice,
or one that is in use. -/
theorem checkCalls_iff_walks (hregions : CallsSubroutines regions) (active calls : List Nat)
    (hcalls : ∀ q ∈ calls, ∃ r, regions[q]? = some r) :
    g.checkCalls regions active calls = .ok () ↔
      ∀ q ∈ calls, ∀ walk, List.IsChain (Calls regions) (q :: walk) →
        ((q :: walk).map (slotAt regions)).Nodup ∧
          ∀ s ∈ q :: walk, slotAt regions s ∉ active := by
  induction active, calls using checkCalls.induct regions with
  | case1 active calls ih =>
    rw [checkCalls_eq_ok]
    refine forall₂_congr fun q hq => ?_
    obtain ⟨r, hr⟩ := hcalls q hq
    have hslot : slotAt regions q = r.slot.getD 0 := by rw [slotAt, getD_of_getElem? hr]
    have hinner : ∀ s, s ∈ r.calls ↔ Calls regions q s := by
      intro s
      rw [Calls, getD_of_getElem? hr]
    have hthere : ∀ s ∈ r.calls, ∃ r', regions[s]? = some r' := by
      intro s hs
      obtain ⟨r', hr', -⟩ := hregions q s ((hinner s).1 hs)
      exact ⟨r', hr'⟩
    simp only [hr, Option.some.injEq, forall_eq']
    -- A walk below `q` must avoid its variable besides those in use: then it is not met again.
    constructor
    · rintro ⟨hfree, hcheck⟩ walk hchain
      rw [ih q r hr (by simpa using hfree) hthere] at hcheck
      cases walk with
      | nil => simp [hslot, hfree]
      | cons s walk =>
        obtain ⟨hcall, hchain⟩ := isChain_cons_cons.1 hchain
        obtain ⟨hnodup, hout⟩ := hcheck s ((hinner s).2 hcall) walk hchain
        refine ⟨?_, ?_⟩
        · rw [map_cons, nodup_cons]
          refine ⟨?_, hnodup⟩
          rintro hmem
          obtain ⟨t, ht, heq⟩ := mem_map.1 hmem
          exact hout t ht (by rw [heq, hslot]; exact mem_cons_self)
        · intro t ht
          rcases mem_cons.1 ht with rfl | ht
          · rwa [hslot]
          · exact fun hin => hout t ht (mem_cons_of_mem _ hin)
    · intro hwalks
      have hfree : r.slot.getD 0 ∉ active := by
        rw [← hslot]
        exact (hwalks [] (isChain_singleton q)).2 q mem_cons_self
      refine ⟨hfree, (ih q r hr (by simpa using hfree) hthere).2 ?_⟩
      intro s hs walk hchain
      obtain ⟨hnodup, hout⟩ :=
        hwalks (s :: walk) (isChain_cons_cons.2 ⟨(hinner s).1 hs, hchain⟩)
      rw [map_cons, nodup_cons] at hnodup
      refine ⟨hnodup.2, fun t ht hin => ?_⟩
      rcases mem_cons.1 hin with heq | hin
      · exact hnodup.1 (mem_map.2 ⟨t, ht, heq.trans hslot.symm⟩)
      · exact hout t (mem_cons_of_mem q ht) hin

theorem checkCalls_top (hregions : CallsSubroutines regions) (a : Nat) :
    g.checkCalls regions [] (regions.getD a {}).calls = .ok () ↔
      ∀ walk, List.IsChain (Calls regions) (a :: walk) →
        (walk.map (slotAt regions)).Nodup := by
  have hthere : ∀ s ∈ (regions.getD a {}).calls, ∃ r, regions[s]? = some r := by
    intro s hs
    obtain ⟨r, hr, -⟩ := hregions a s hs
    exact ⟨r, hr⟩
  rw [checkCalls_iff_walks hregions [] _ hthere]
  constructor
  · intro hwalks walk hchain
    cases walk with
    | nil => exact nodup_nil
    | cons s walk =>
      obtain ⟨hcall, hchain⟩ := isChain_cons_cons.1 hchain
      exact (hwalks s hcall walk hchain).1
  · intro hwalks s hs walk hchain
    exact ⟨hwalks (s :: walk) (isChain_cons_cons.2 ⟨hs, hchain⟩), fun _ _ => not_mem_nil⟩

/-- A walk from a region that comes back to a region meets its variable twice. -/
theorem exists_walk_of_circle {a s : Nat} (hreach : Relation.ReflTransGen (Calls regions) a s)
    (hcircle : Relation.TransGen (Calls regions) s s) :
    ∃ walk, List.IsChain (Calls regions) (a :: walk) ∧ ¬(walk.map (slotAt regions)).Nodup := by
  obtain ⟨t, hcall, hback⟩ := Relation.TransGen.head'_iff.1 hcircle
  obtain ⟨out, hout, hlast⟩ := exists_isChain_cons_of_relationReflTransGen hreach
  obtain ⟨round, hround, hend⟩ := exists_isChain_cons_of_relationReflTransGen hback
  -- The walk goes out to `s`, and then round the circle twice.
  have htwice : List.IsChain (Calls regions) ((t :: round) ++ (t :: round)) := by
    refine isChain_append.2 ⟨hround, hround, ?_⟩
    intro x hx y hy
    rw [getLast?_eq_some_getLast (cons_ne_nil t round), hend] at hx
    simp only [head?_cons, Option.mem_def, Option.some.injEq] at hx hy
    rwa [← hx, ← hy]
  refine ⟨out ++ ((t :: round) ++ (t :: round)), ?_, ?_⟩
  · rw [← cons_append]
    refine isChain_append.2 ⟨hout, htwice, ?_⟩
    intro x hx y hy
    rw [getLast?_eq_some_getLast (cons_ne_nil a out), hlast] at hx
    simp only [cons_append, head?_cons, Option.mem_def, Option.some.injEq] at hx hy
    rwa [← hx, ← hy]
  · intro hnodup
    have hnodup := (nodup_append.1 (map_append ▸ hnodup)).2.1
    rw [map_append, nodup_append] at hnodup
    exact hnodup.2.2 (slotAt regions t) (by simp) (slotAt regions t) (by simp) rfl

/-- Recursion is refused exactly. The check of the regions of a graph comes to the end that the walk
with one set has, which leaves the set empty; it passes exactly if no walk from the top level meets
a variable twice, and then no call that can be reached from there leads back to itself. -/
theorem recursion_ban_exact (g : CodeEdges) (strict : Bool) (regions : Array Region)
    (owner : Array (Option Nat)) (h : g.divide strict = .ok (regions, owner)) :
    CallsSubroutines regions ∧
      (∀ outcome, Visits g regions ∅ (regions.getD 0 {}).calls outcome ↔
        outcome = (g.checkCalls regions [] (regions.getD 0 {}).calls).map fun _ => ∅) ∧
      (g.checkCalls regions [] (regions.getD 0 {}).calls = .ok () ↔
        ∀ walk, List.IsChain (Calls regions) (0 :: walk) → (walk.map (slotAt regions)).Nodup) ∧
      (g.checkCalls regions [] (regions.getD 0 {}).calls = .ok () →
        ∀ s, Relation.ReflTransGen (Calls regions) 0 s →
          ¬Relation.TransGen (Calls regions) s s) := by
  have hregions := callsSubroutines_of_divide h
  refine ⟨hregions, fun outcome => ?_, checkCalls_top hregions 0, fun hpass s hreach hcircle => ?_⟩
  · have hends := visits_checkCalls (g := g) hregions [] (regions.getD 0 {}).calls fun q hq =>
      (hregions 0 q hq).imp fun _ hr => hr.1
    exact ⟨fun hvisits => hvisits.unique hends, fun heq => heq ▸ hends⟩
  · obtain ⟨walk, hchain, hmeets⟩ := exists_walk_of_circle hreach hcircle
    exact hmeets ((checkCalls_top hregions 0).1 hpass walk hchain)

/-- A subroutine that calls itself. -/
def callsItself : List UInt8 :=
  -- jsr 4, return; astore_0, jsr 4, ret 0
  [0xa8, 0x00, 0x04, 0xb1, 0x4b, 0xa8, 0xff, 0xff, 0xa9, 0x00]

theorem recursion_ban_exact_callsItself :
    (∃ code g regions owner, decode calledTwice = .ok code ∧
      CodeEdges.build code [callHandler] .empty = .ok g ∧ g.divide true = .ok (regions, owner) ∧
      Calls regions 0 1 ∧ ¬Relation.TransGen (Calls regions) 1 1) ∧
    ∃ code g regions owner, decode callsItself = .ok code ∧
      CodeEdges.build code [] .empty = .ok g ∧ g.divide true = .ok (regions, owner) ∧
      Calls regions 0 1 ∧ Calls regions 1 1 ∧
      g.checkCalls regions [] (regions.getD 0 {}).calls ≠ .ok () := by
  obtain ⟨code, hcode, g, hg, d, hd, _, hpass, hcall⟩ : ∃ code, decode calledTwice = .ok code ∧
      ∃ g, CodeEdges.build code [callHandler] .empty = .ok g ∧ ∃ d, g.divide true = .ok d ∧
      ∃ u, g.checkCalls d.1 [] (d.1.getD 0 {}).calls = .ok u ∧ 1 ∈ (d.1.getD 0 {}).calls := by
    decide +kernel
  obtain ⟨code', hcode', g', hg', d', hd', hcall', hself⟩ : ∃ code, decode callsItself = .ok code ∧
      ∃ g, CodeEdges.build code [] .empty = .ok g ∧ ∃ d, g.divide true = .ok d ∧
      1 ∈ (d.1.getD 0 {}).calls ∧ 1 ∈ (d.1.getD 1 {}).calls := by decide +kernel
  refine ⟨⟨code, g, d.1, d.2, hcode, hg, hd, hcall, ?_⟩,
    ⟨code', g', d'.1, d'.2, hcode', hg', hd', hcall', hself, fun hpass => ?_⟩⟩
  · exact (recursion_ban_exact g true d.1 d.2 hd).2.2.2 hpass 1 (.single hcall)
  · have hchain : List.IsChain (Calls d'.1) [0, 1, 1] :=
      isChain_cons_cons.2 ⟨hcall', isChain_pair.2 hself⟩
    have hnodup := (recursion_ban_exact g' true d'.1 d'.2 hd').2.2.1.1 hpass [1, 1] hchain
    simp at hnodup

end Bytecode.CodeEdges
