import Bytecode.Proofs.PathSoundness

/-!
Values of two slots in local variables.

A long or double in variable `i` takes variable `i + 1` too, which is unusable from then on. A store
to `i + 1` leaves variable `i` as it is, and only a load of `i` looks at both: it demands that
`i + 1` is unusable, so that nothing has been stored there since.

That is not enough. A merge with a path that has stored nothing makes `i + 1` unusable again, and
the overwritten value can be loaded (`overwrittenHalf`). `overwritten_half_lost` says that there is
no other way: if a path of an accepted method overwrites the second half of what it loads later,
then somewhere in between a merge has lost what was stored.
-/
namespace Bytecode

open FlowGraph

namespace Instruction

/-- Does an instruction store to a local variable? -/
def storesTo (ins : Instruction) (i : Nat) : Bool :=
  match ins.action with
  | .store _ _ => ins.index = i
  | _ => false

/-- Does an instruction write a local variable? A value of two slots takes the next one too. -/
def writes (ins : Instruction) (j : Nat) : Bool :=
  match ins.action with
  | .store kind _ => ins.index = j || (kind.size = 2 && ins.index + 1 = j)
  | .iinc => ins.index = j
  | _ => false

end Instruction

namespace Frame

/-- A local variable holds a value. -/
def Usable (f : Frame) (j : Nat) : Prop :=
  ∃ v, f.locals[j]? = some v ∧ v ≠ .unknown

variable {f g : Frame} {ins : Instruction} {i j : Nat}

/-- What can be used stays usable, unless it becomes the second half of what is stored before
it. -/
theorem Usable.of_effect {c : MethodContext} (he : Effect c ins f g)
    (hvalues : ValueType.unknown ∉ f.stack.values) (hstore : ins.storesTo i = false)
    (hf : f.Usable (i + 1)) : g.Usable (i + 1) := by
  obtain ⟨v, hv, hne⟩ := hf
  cases he with
  | values | call => exact ⟨v, hv, hne⟩
  | @store kind slot t vs haction htop =>
    have hindex : ins.index ≠ i := by simpa [Instruction.storesTo, haction] using hstore
    by_cases hself : i + 1 = ins.index
    · have hlt : ins.index < f.locals.size := by
        rw [← hself]
        exact (Array.getElem?_eq_some_iff.1 hv).1
      refine ⟨t, ?_, ?_⟩
      · rw [hself]
        exact getElem?_storedLocals_self hlt
      · rintro rfl
        exact hvalues (htop ▸ List.mem_cons_self)
    · refine ⟨v, ?_, hne⟩
      show (storedLocals f.locals ins.index t)[i + 1]? = some v
      rw [getElem?_storedLocals_of_ne hself (by omega), hv]
  | @construct _ _ _ marker =>
    -- A constructor call replaces values by values.
    refine ⟨if v = marker then marker.initialized else v, ?_, ?_⟩
    · show (f.locals.map _)[i + 1]? = _
      rw [Array.getElem?_map, hv]
      rfl
    · split
      · exact nofun
      · exact hne

end Frame

namespace MethodContext

variable {c : MethodContext} {g : FlowGraph} {code : Array Instruction} {s : FlowState}
  {early late : List Leg} {clobber : Leg} {p : Point} {k : CallKey} {f out carried : Frame}
  {ins : Instruction} {i : Nat}

theorem usable_of_writes (hf : c.Fits f) (hcheck : c.checkValues ins f = .ok ())
    (hrun : c.run ins f = .ok out) (hwrites : ins.writes (i + 1) = true)
    (hstore : ins.storesTo i = false) : out.Usable (i + 1) := by
  cases haction : ins.action with
    simp only [Instruction.writes, haction, Bool.false_eq_true, Bool.or_eq_true, Bool.and_eq_true,
      decide_eq_true_eq] at hwrites
  | store kind slot =>
    have hindex : ins.index = i + 1 := by
      have hne : ins.index ≠ i := by simpa [Instruction.storesTo, haction] using hstore
      omega
    simp only [run, haction, Frame.store_eq_ok] at hrun
    obtain ⟨t, values, htop, hlt, -, rfl⟩ := hrun
    refine ⟨t, ?_, ?_⟩
    · rw [← hindex]
      exact Frame.getElem?_storedLocals_self hlt
    · rintro rfl
      exact hf.values (htop ▸ List.mem_cons_self)
  | iinc =>
    simp only [run, haction, Except.ok.injEq] at hrun
    simp only [checkValues, haction, Frame.checkIncrement_eq_ok] at hcheck
    subst hrun
    exact ⟨.int, hwrites ▸ hcheck, by simp⟩

/-- A variable that can be used in one frame is unusable in another. -/
def Loses (j : Nat) (carried next : Frame) : Prop :=
  carried.Usable j ∧ next.locals[j]? = some .unknown

/-- What can be used where it is carried to is usable there, or is lost. -/
theorem usable_or_loses {next : Frame} {j : Nat} (husable : out.Usable j)
    (hlocals : carried.locals = out.locals) (hcovers : next.Covers c.hierarchy carried) :
    next.Usable j ∨ Loses j carried next := by
  have hcarried : carried.Usable j := by rwa [Frame.Usable, hlocals]
  have hlt : j < next.locals.size := by
    obtain ⟨v, hv, -⟩ := hcarried
    have hlength := hcovers.locals.length_eq
    simp only [Array.length_toList] at hlength
    rw [← hlength]
    exact (Array.getElem?_eq_some_iff.1 hv).1
  have hget := Array.getElem?_eq_getElem hlt
  by_cases hlost : next.locals[j] = .unknown
  · rw [hlost] at hget
    exact .inr ⟨hcarried, hget⟩
  · exact .inl ⟨_, hget, hlost⟩

/-- After a leg that overwrites a variable, the variable can be used along the path, or it is lost
on the way. The induction is on the legs after it. -/
theorem usable_along (h : Solved c g code s)
    (halong : Along c g s (late ++ clobber :: early) p k carried f)
    (hclobber : (g.instruction clobber.node).writes (i + 1) = true)
    (hkept : ∀ leg ∈ late ++ [clobber], (g.instruction leg.node).storesTo i = false) :
    f.Usable (i + 1) ∨ MeetsOn c g s (Loses (i + 1)) late (clobber :: early) := by
  have hwhole := halong
  induction late generalizing p k carried f with
  | nil =>
    cases halong with
    | @turn _ p' _ _ _ _ _ input out _ _ along check run output _ _ carries stored covers =>
      have hstore := hkept _ (List.mem_singleton.2 rfl)
      have husable : out.Usable (i + 1) := usable_of_writes (h.fits (.inl along.stored))
        (check_eq_ok.1 check).2 run hclobber hstore
      rcases usable_or_loses husable (locals_of_frame carries) covers with hnext | hloses
      · exact .inl hnext
      · exact .inr (.here hwhole hloses)
  | cons leg late ih =>
    cases halong with
    | @turn _ p' _ _ _ _ _ input out _ _ along check run output _ _ carries stored covers =>
      have hstore := hkept _ List.mem_cons_self
      rcases ih along (fun leg hleg => hkept leg (List.mem_cons_of_mem _ hleg)) along with
        hbefore | hlost
      · have husable : out.Usable (i + 1) := hbefore.of_effect (effect_run run)
          (h.fits (.inl along.stored)).values hstore
        rcases usable_or_loses husable (locals_of_frame carries) covers with hnext | hloses
        · exact .inl hnext
        · exact .inr (.here hwhole hloses)
      · exact .inr hlost.cons

end MethodContext

/-- Let a path of an accepted method end at a load of a long or double, and let a leg of it write
the second half, with no store to the variable of the load from there on. Then on the way from that
leg to the load, data flow has lost what was written in a merge. -/
theorem overwritten_half_lost (t : ClassTable) (options : VerifyOptions) (runId : String)
    (owner : Class) (m : Method) (verdict : Verdict) (prepared : PreparedCode) (g : FlowGraph)
    (hprepared : m.prepare owner.pool = .ok prepared)
    (hg : FlowGraph.build prepared.code m.handlers owner.pool options.strict = .ok g)
    (hcode : m.hasCode = true) (hverdict : verify t options runId owner m = .ok verdict)
    (haccepted : verdict.status = .accepted) (early late : List Leg) (clobber : Leg) (p : Point)
    (hwalk : g.walk (late ++ clobber :: early) = some p)
    (hload : (g.instruction p.node).action.loadsWide = true)
    (hclobber : (g.instruction clobber.node).writes ((g.instruction p.node).index + 1) = true)
    (hkept : ∀ leg ∈ late ++ [clobber],
      (g.instruction leg.node).storesTo (g.instruction p.node).index = false) :
    ∃ s, (verifyTraced t options runId owner m).flow = some s ∧
      MethodContext.MeetsOn ⟨t, owner, m, prepared.type⟩ g s
        (MethodContext.Loses ((g.instruction p.node).index + 1)) late (clobber :: early) := by
  obtain ⟨s, hflow, hsolved⟩ := solved_of_accepted hprepared hg hcode hverdict haccepted
  refine ⟨s, hflow, ?_⟩
  obtain ⟨k, carried, f, calls, halong, -⟩ := MethodContext.exists_along hsolved hwalk
  rcases MethodContext.usable_along hsolved halong hclobber hkept with ⟨v, hv, hne⟩ | hlost
  · -- The load demands that the second half is unusable.
    obtain ⟨hcheck, -⟩ := hsolved.fixed.executed _ _ _ halong.stored
    have hvalues := (MethodContext.check_eq_ok.1 hcheck).2
    cases haction : (g.instruction p.node).action with
      simp only [haction, Action.loadsWide, Bool.false_eq_true, decide_eq_true_eq] at hload
    | load kind slot =>
      simp only [MethodContext.checkValues, haction, Frame.checkLoad_eq_ok] at hvalues
      obtain ⟨-, got, -, hhalf, -⟩ := hvalues
      cases hv.symm.trans (hhalf hload)
      exact absurd rfl hne
  · exact hlost

/-- A long whose second half is overwritten on one of two paths, and which is loaded then. -/
def overwrittenHalf : Method where
  name := "overwrittenHalf"
  descriptor := "(I)V"
  access := .staticBit
  maxStack := 2
  maxLocals := 3
  -- lconst_0, lstore_1, iload_0, ifeq 8, iconst_0, istore_2; lload_1, pop2, return
  code := [0x09, 0x40, 0x1a, 0x99, 0x00, 0x05, 0x03, 0x3d, 0x1f, 0x58, 0xb1]

/-- The store over the second half. -/
def overHalf : Leg :=
  ⟨5, .flow 6⟩

/-- The way there. -/
def towardsHalf : List Leg :=
  [⟨4, .flow 5⟩, ⟨3, .flow 4⟩, ⟨2, .flow 3⟩, ⟨1, .flow 2⟩, ⟨0, .flow 1⟩]

theorem overwrittenHalf_path : ∃ prepared,
    overwrittenHalf.prepare plainClass.pool = .ok prepared ∧
    ∃ g, FlowGraph.build prepared.code overwrittenHalf.handlers plainClass.pool true = .ok g ∧
    g.walk (overHalf :: towardsHalf) = some ⟨6, []⟩ ∧
    (g.instruction 1).action = .store (.numeric .long) (some 1) ∧
    (g.instruction 5).writes 2 = true ∧
    (∀ leg ∈ overHalf :: towardsHalf.take 3, (g.instruction leg.node).storesTo 1 = false) ∧
    (g.instruction 6).action = .load (.numeric .long) (some 1) ∧ (g.instruction 6).index = 1 := by
  decide +kernel

theorem overwritten_half_lost_overwrittenHalf : ∃ prepared g s,
    overwrittenHalf.prepare plainClass.pool = .ok prepared ∧
    FlowGraph.build prepared.code overwrittenHalf.handlers plainClass.pool true = .ok g ∧
    (verifyTraced plainTable {} "" plainClass overwrittenHalf).flow = some s ∧
    MethodContext.MeetsOn ⟨plainTable, plainClass, overwrittenHalf, prepared.type⟩ g s
      (MethodContext.Loses 2) [] (overHalf :: towardsHalf) := by
  obtain ⟨verdict, hverdict, haccepted⟩ : ∃ verdict,
      verify plainTable {} "" plainClass overwrittenHalf = .ok verdict ∧
      verdict.status = .accepted := by decide +kernel
  obtain ⟨prepared, hprepared, g, hg, hwalk, -, hclobber, hkept, hload, hindex⟩ :=
    overwrittenHalf_path
  have hwide : (g.instruction 6).action.loadsWide = true := by
    rw [hload]
    rfl
  obtain ⟨s, hflow, hlost⟩ := overwritten_half_lost plainTable {} "" plainClass overwrittenHalf
    verdict prepared g hprepared hg rfl hverdict haccepted towardsHalf []
    overHalf ⟨6, []⟩ hwalk hwide (by rw [hindex]; exact hclobber) (by
      intro leg hleg
      rw [hindex, List.mem_singleton.1 hleg]
      exact hkept _ List.mem_cons_self)
  rw [hindex] at hlost
  exact ⟨prepared, g, s, hprepared, hg, hflow, hlost⟩

/-- The method is accepted although this path stores a long, overwrites its second half and loads
it, with no other store to its first half. -/
theorem overwritten_half_loaded :
    (verify plainTable {} "" plainClass overwrittenHalf).toOption.map Verdict.status =
        some .accepted ∧
      ∃ prepared g, overwrittenHalf.prepare plainClass.pool = .ok prepared ∧
        FlowGraph.build prepared.code overwrittenHalf.handlers plainClass.pool true = .ok g ∧
        g.walk (overHalf :: towardsHalf) = some ⟨6, []⟩ ∧
        (g.instruction 1).action = .store (.numeric .long) (some 1) ∧
        (g.instruction 5).writes 2 = true ∧
        (∀ leg ∈ overHalf :: towardsHalf.take 3,
          (g.instruction leg.node).storesTo 1 = false) ∧
        (g.instruction 6).action = .load (.numeric .long) (some 1) ∧
        (g.instruction 6).index = 1 := by
  obtain ⟨prepared, hprepared, g, hg, hpath⟩ := overwrittenHalf_path
  exact ⟨by decide +kernel, prepared, g, hprepared, hg, hpath⟩

end Bytecode
