import Bytecode.Proofs.WellFormed

/-!
Superclasses, one after another, up to a class that has none, in tables of any classes.

* `Climbs.of_append`, `Climbs.antisymm`: two classes have the same superclasses from the first on
  that they share;
* `exists_commonSuperclass_of_climbs`: that one is their common superclass, in whichever order they
  are named.
-/
namespace Bytecode.ClassTable

open List

variable {t : ClassTable} {a b d : String} {chain chain' above other : List String}

/-- The superclasses of a class, nearest first, end with a class that has none. All are in the
table. -/
inductive Climbs (t : ClassTable) : String → List String → Prop
  | top {a : String} {cls : Class} (hfind : t.find? a = some cls) (hsuper : cls.super = none) :
      Climbs t a []
  | up {a b : String} {cls : Class} {chain : List String} (hfind : t.find? a = some cls)
      (hsuper : cls.super = some b) (hrest : Climbs t b chain) : Climbs t a (b :: chain)

namespace Climbs

theorem exists_find? (h : t.Climbs a chain) : ∃ cls, t.find? a = some cls := by
  cases h with
  | top hfind => exact ⟨_, hfind⟩
  | up hfind => exact ⟨_, hfind⟩

theorem unique (h : t.Climbs a chain) (h' : t.Climbs a chain') : chain = chain' := by
  induction h generalizing chain' with
  | top hfind hsuper =>
    cases h' with
    | top => rfl
    | up hfind' hsuper' =>
      cases hfind.symm.trans hfind'
      cases hsuper.symm.trans hsuper'
  | up hfind hsuper _ ih =>
    cases h' with
    | top hfind' hsuper' =>
      cases hfind.symm.trans hfind'
      cases hsuper.symm.trans hsuper'
    | up hfind' hsuper' hrest' =>
      cases hfind.symm.trans hfind'
      cases hsuper.symm.trans hsuper'
      rw [ih hrest']

theorem of_append {before rest : List String} (h : t.Climbs a chain)
    (hsplit : a :: chain = before ++ b :: rest) : t.Climbs b rest := by
  induction h generalizing before with
  | top hfind hsuper =>
    cases before with
    | nil =>
      cases hsplit
      exact .top hfind hsuper
    | cons _ before => simp at hsplit
  | up hfind hsuper hrest ih =>
    cases before with
    | nil =>
      cases hsplit
      exact .up hfind hsuper hrest
    | cons _ before => exact ih (List.cons.inj hsplit).2

theorem exists_append (ha : t.Climbs a above) (hb : t.Climbs b other) (hab : b ∈ a :: above) :
    ∃ before, a :: above = before ++ b :: other := by
  obtain ⟨before, rest, hsplit⟩ := append_of_mem hab
  rw [(ha.of_append hsplit).unique hb] at hsplit
  exact ⟨before, hsplit⟩

theorem antisymm (ha : t.Climbs a above) (hb : t.Climbs b other) (hab : b ∈ a :: above)
    (hba : a ∈ b :: other) : a = b := by
  -- Each list of superclasses is the end of the other, so nothing stands before it.
  obtain ⟨before, hsplit⟩ := ha.exists_append hb hab
  obtain ⟨before', hsplit'⟩ := hb.exists_append ha hba
  have hlength := congrArg List.length hsplit
  have hlength' := congrArg List.length hsplit'
  simp only [length_cons, length_append] at hlength hlength'
  obtain rfl : before = [] := eq_nil_of_length_eq_zero (by omega)
  exact (List.cons.inj hsplit).1

theorem not_mem (h : t.Climbs a chain) : a ∉ chain := by
  intro hmem
  obtain ⟨before, rest, rfl⟩ := append_of_mem hmem
  -- From the second time on it would have the same superclasses, but fewer.
  have hrest : t.Climbs a rest := h.of_append cons_append.symm
  have hlength := congrArg List.length (hrest.unique h)
  simp only [length_append, length_cons] at hlength
  omega

theorem nodup (h : t.Climbs a chain) : (a :: chain).Nodup := by
  induction h with
  | top => simp
  | up hfind hsuper hrest ih => exact nodup_cons.2 ⟨(up hfind hsuper hrest).not_mem, ih⟩

end Climbs

/-! ### The walk of the table -/

/-- The walk up from a class gives its superclasses, unless it meets one that it has seen. -/
theorem walks_iff_climbs {cls : Class} {seen : List String} (hfind : t.find? a = some cls) :
    t.Walks cls.super seen chain ↔ t.Climbs a chain ∧ ∀ b ∈ chain, b ∉ seen := by
  constructor
  · intro h
    generalize hsuper : cls.super = super at h
    induction h generalizing a cls with
    | top => exact ⟨.top hfind hsuper, by simp⟩
    | up hfresh hfind' _ ih =>
      obtain ⟨hclimbs, hseen⟩ := ih hfind' rfl
      refine ⟨.up hfind hsuper hclimbs, fun b hb => ?_⟩
      rcases mem_cons.1 hb with rfl | hb
      · exact hfresh
      · exact fun hmem => hseen b hb (mem_cons_of_mem _ hmem)
  · rintro ⟨h, hseen⟩
    -- What the walk has seen grows with each superclass, but not by one that is further up.
    induction h generalizing cls seen with
    | top hfind' hsuper =>
      cases hfind.symm.trans hfind'
      rw [hsuper]
      exact .top
    | @up a b _ _ hfind' hsuper hrest ih =>
      cases hfind.symm.trans hfind'
      obtain ⟨cls', hb⟩ := hrest.exists_find?
      rw [hsuper]
      refine .up (hseen b mem_cons_self) hb (ih hb fun d hd hmem => ?_)
      rcases mem_cons.1 hmem with rfl | hmem
      · exact hrest.not_mem hd
      · exact hseen d (mem_cons_of_mem b hd) hmem

theorem superclasses_iff_climbs : t.superclasses a = .ok chain ↔ t.Climbs a chain := by
  rw [superclasses_eq_ok]
  constructor
  · rintro ⟨cls, hfind, h⟩
    exact ((walks_iff_climbs hfind).1 h).1
  · intro h
    obtain ⟨cls, hfind⟩ := h.exists_find?
    refine ⟨cls, hfind, (walks_iff_climbs hfind).2 ⟨h, fun b hb hseen => ?_⟩⟩
    rw [mem_singleton.1 hseen] at hb
    exact h.not_mem hb

/-! ### Common superclasses -/

/-- If two classes, each with its superclasses, share any class, this is one that they share, and
every other is above it. If they share none, it is the root. -/
structure IsNearest (t : ClassTable) (above other : List String) (d : String) : Prop where
  shared : (∃ e ∈ above, e ∈ other) → d ∈ above ∧ d ∈ other
  least : ∀ e ∈ above, e ∈ other → ∃ rest, t.superclasses d = .ok rest ∧ e ∈ d :: rest
  apart : (∀ e ∈ above, e ∉ other) → d = objectClass

theorem IsNearest.symm (h : t.IsNearest above other d) : t.IsNearest other above d where
  shared := fun ⟨e, he, he'⟩ => (h.shared ⟨e, he', he⟩).symm
  least e he he' := h.least e he' he
  apart hapart := h.apart fun e he he' => hapart e he' he

theorem IsNearest.unique {d' : String} (h : t.IsNearest above other d)
    (h' : t.IsNearest above other d') : d = d' := by
  by_cases hshare : ∃ e ∈ above, e ∈ other
  · obtain ⟨hd, hd₂⟩ := h.shared hshare
    obtain ⟨hd', hd₂'⟩ := h'.shared hshare
    obtain ⟨rest, hrest, hmem⟩ := h.least d' hd' hd₂'
    obtain ⟨rest', hrest', hmem'⟩ := h'.least d hd hd₂
    exact (superclasses_iff_climbs.1 hrest).antisymm (superclasses_iff_climbs.1 hrest') hmem hmem'
  · have hapart : ∀ e ∈ above, e ∉ other := fun e he he' => hshare ⟨e, he, he'⟩
    rw [h.apart hapart, h'.apart hapart]

/-- The first of the one class and its superclasses that is among the other's is the nearest that
they share. -/
theorem isNearest_find? (above : List String) (hb : t.Climbs b other) :
    t.IsNearest above (b :: other) (((b :: other).find? above.contains).getD objectClass) := by
  cases hfound : (b :: other).find? above.contains with
  | none =>
    have hnone : ∀ e ∈ b :: other, e ∉ above := by
      simpa using hfound
    exact ⟨fun ⟨e, he, he'⟩ => absurd he (hnone e he'), fun e he he' => absurd he (hnone e he'),
      fun _ => rfl⟩
  | some d =>
    obtain ⟨hd, before, rest, hsplit, hbefore⟩ := find?_eq_some_iff_append.1 hfound
    have hd : d ∈ above := by simpa using hd
    have hd' : d ∈ b :: other := by simp [hsplit]
    refine ⟨fun _ => ⟨hd, hd'⟩, fun e he he' => ?_, fun hapart => absurd hd' (hapart d hd)⟩
    refine ⟨rest, superclasses_iff_climbs.2 (hb.of_append hsplit), ?_⟩
    -- A class before `d` would have been found in its place.
    rw [hsplit] at he'
    rcases mem_append.1 he' with hmem | hmem
    · have hnot := hbefore e hmem
      simp only [contains_eq_mem, Bool.not_eq_true', decide_eq_false_iff_not] at hnot
      exact absurd he hnot
    · exact hmem

theorem commonSuperclass_eq (hab : a ≠ b) (ha : t.superclasses a = .ok above)
    (hb : t.superclasses b = .ok other) : t.commonSuperclass a b =
      .ok (((b :: other).find? (a :: above).contains).getD objectClass) := by
  rw [commonSuperclass, if_neg hab, ha, hb]
  rfl

/-- Two classes have a nearest superclass in common, in whichever order they are named. -/
theorem exists_commonSuperclass_of_climbs (hab : a ≠ b) (ha : t.superclasses a = .ok above)
    (hb : t.superclasses b = .ok other) : ∃ d, t.commonSuperclass a b = .ok d ∧
      t.commonSuperclass b a = .ok d ∧ t.IsNearest (a :: above) (b :: other) d := by
  have hnear := isNearest_find? (a :: above) (superclasses_iff_climbs.1 hb)
  have hnear' := isNearest_find? (b :: other) (superclasses_iff_climbs.1 ha)
  refine ⟨_, commonSuperclass_eq hab ha hb, ?_, hnear⟩
  rw [commonSuperclass_eq hab.symm hb ha, hnear.unique hnear'.symm]

end Bytecode.ClassTable
