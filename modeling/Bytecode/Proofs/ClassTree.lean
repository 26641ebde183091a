import Mathlib.Logic.Relation
import Bytecode.Proofs.Climbs

/-!
Class tables whose superclasses form a tree below the root class.

* `exists_walks`: where nothing above a class is missing, the walk up its superclasses
  ends;
* `isSubclassOf_antisymm`: no class is above itself through others;
* `IsTree.exists_commonSuperclass`: the common superclass of two classes is the least class that is
  above both.
-/
namespace Bytecode.ClassTable

/-- The class `a` has the superclass `b`. -/
def Extends (t : ClassTable) (a b : String) : Prop :=
  ∃ cls, t.find? a = some cls ∧ cls.super = some b

/-- Every superclass is there, the superclasses of no class go round in a circle, and they lead to
the root class, which is there and has none. Interfaces are directly below the root, and no name
reads as a descriptor. -/
structure IsTree (t : ClassTable) : Prop where
  names : ∀ cls ∈ t.classes, IsClassName cls.name
  closed : ∀ cls ∈ t.classes, ∀ super ∈ cls.super, t.has super = true
  acyclic : ∀ name, ¬Relation.TransGen t.Extends name name
  hasRoot : t.has objectClass = true
  root : ∀ cls ∈ t.classes, cls.super = none ↔ cls.name = objectClass
  belowRoot : ∀ cls ∈ t.classes, cls.isInterface = true → cls.super = some objectClass

variable {t : ClassTable} {name a b d e : String} {cls : Class}

theorem acyclic_of_rank (rank : String → Nat)
    (hrank : ∀ cls ∈ t.classes, ∀ super ∈ cls.super, rank super < rank cls.name) (name : String) :
    ¬Relation.TransGen t.Extends name name := by
  have hlt : ∀ {a b}, Relation.TransGen t.Extends a b → rank b < rank a := by
    have hstep : ∀ {a b}, t.Extends a b → rank b < rank a := by
      rintro a b ⟨cls, hfind, hsuper⟩
      obtain ⟨hmem, rfl⟩ := mem_of_find? hfind
      exact hrank cls hmem b hsuper
    intro a b hab
    induction hab with
    | single hab => exact hstep hab
    | tail _ hbd ih => exact Nat.lt_trans (hstep hbd) ih
  intro hcircle
  exact Nat.lt_irrefl _ (hlt hcircle)

theorem has_iff : t.has name = true ↔ ∃ cls, t.find? name = some cls := by
  rw [has, Option.isSome_iff_exists]

/-! ### Walks up the superclasses -/

/-- Where the superclasses do not go round, a walk ends as long as all that it has seen is below
where it goes on, and all that is above is there. -/
theorem exists_walks_of_seen (hacyclic : ∀ name, ¬Relation.TransGen t.Extends name name)
    (name : String) {super : Option String} {seen : List String}
    (hsuper : ∀ b ∈ super, ∀ d, Relation.ReflTransGen t.Extends b d → t.has d = true)
    (hseen : ∀ b ∈ super, ∀ a ∈ seen, Relation.TransGen t.Extends a b) :
    ∃ above, t.Walks super seen above := by
  fun_induction t.superclassesFrom name super seen with
  | case1 => exact ⟨[], .top⟩
  | case2 seen super hagain =>
    have hmem : super ∈ seen := by simpa using hagain
    exact absurd (hseen super rfl super hmem) (hacyclic super)
  | case3 seen super _ hnone =>
    obtain ⟨cls, hfind⟩ := has_iff.1 (hsuper super rfl super .refl)
    cases hnone.symm.trans hfind
  | case4 seen super hfresh cls hfind _ ih =>
    have hstep : ∀ b ∈ cls.super, t.Extends super b := fun b hb => ⟨cls, hfind, hb⟩
    obtain ⟨above, habove⟩ := ih (fun b hb d hbd => hsuper super rfl d (.head (hstep b hb) hbd)) (by
        intro b hb a ha
        rcases List.mem_cons.1 ha with rfl | ha
        · exact .single (hstep b hb)
        · exact (hseen super rfl a ha).tail (hstep b hb))
    exact ⟨super :: above, .up (by simpa using hfresh) hfind habove⟩

theorem exists_walks (hacyclic : ∀ name, ¬Relation.TransGen t.Extends name name)
    (hfind : t.find? name = some cls)
    (hsuper : ∀ b ∈ cls.super, ∀ d, Relation.ReflTransGen t.Extends b d → t.has d = true) :
    ∃ above, t.Walks cls.super [name] above := by
  refine exists_walks_of_seen hacyclic name hsuper fun b hb a ha => ?_
  rw [List.mem_singleton.1 ha]
  exact .single ⟨cls, hfind, hb⟩

theorem isSubclassOf_iff {above : List String} (ha : t.superclasses a = .ok above) :
    t.isSubclassOf a b = .ok true ↔ b ∈ a :: above := by
  obtain ⟨cls, hfind, habove⟩ := superclasses_eq_ok.1 ha
  rw [isSubclassOf_eq_true, List.mem_cons, eq_comm]
  refine or_congr_right ⟨?_, fun hb => ⟨cls, above, hfind, habove, hb⟩⟩
  rintro ⟨cls', above', hfind', habove', hb⟩
  cases hfind.symm.trans hfind'
  rwa [habove.unique habove']

theorem has_of_isSubclassOf (ha : t.has a = true) (hab : t.isSubclassOf a b = .ok true) :
    t.has b = true := by
  rcases isSubclassOf_eq_true.1 hab with rfl | ⟨cls, above, -, habove, hb⟩
  · exact ha
  · obtain ⟨cls', -, -, -, hfind, -⟩ := habove.of_mem hb
    exact has_iff.2 ⟨cls', hfind⟩

theorem isSubclassOf_antisymm (hab : t.isSubclassOf a b = .ok true)
    (hba : t.isSubclassOf b a = .ok true) : a = b := by
  rcases isSubclassOf_eq_true.1 hab with rfl | ⟨cls, above, hfind, habove, hb⟩
  · rfl
  · rcases isSubclassOf_eq_true.1 hba with rfl | ⟨cls', above', hfind', habove', ha⟩
    · rfl
    · have hclimbs := superclasses_iff_climbs.1 (superclasses_eq_ok.2 ⟨cls, hfind, habove⟩)
      have hclimbs' := superclasses_iff_climbs.1 (superclasses_eq_ok.2 ⟨cls', hfind', habove'⟩)
      exact hclimbs.antisymm hclimbs' (List.mem_cons_of_mem a hb) (List.mem_cons_of_mem b ha)

namespace IsTree

variable (h : t.IsTree)
include h

theorem isClassName (ha : t.has a = true) : IsClassName a := by
  obtain ⟨cls, hfind⟩ := has_iff.1 ha
  obtain ⟨hmem, rfl⟩ := mem_of_find? hfind
  exact h.names cls hmem

theorem has_of_reflTransGen (hb : t.has b = true) (hbd : Relation.ReflTransGen t.Extends b d) :
    t.has d = true := by
  induction hbd with
  | refl => exact hb
  | tail _ hstep =>
    obtain ⟨cls, hfind, hsuper⟩ := hstep
    exact h.closed cls (mem_of_find? hfind).1 _ hsuper

theorem root_mem {super : Option String} {seen above : List String}
    (hwalk : t.Walks super seen above) (hsuper : super ≠ none) : objectClass ∈ above := by
  induction hwalk with
  | top => exact absurd rfl hsuper
  | @up super cls _ _ _ hfind _ ih =>
    obtain ⟨hmem, hname⟩ := mem_of_find? hfind
    by_cases hlast : cls.super = none
    · rw [← hname, (h.root cls hmem).1 hlast]
      exact List.mem_cons_self
    · exact List.mem_cons_of_mem _ (ih hlast)

/-- The superclasses of every class can be told, and the root is among them and the class. -/
theorem exists_superclasses (ha : t.has a = true) :
    ∃ above, t.superclasses a = .ok above ∧ objectClass ∈ a :: above := by
  obtain ⟨cls, hfind⟩ := has_iff.1 ha
  obtain ⟨hmem, hname⟩ := mem_of_find? hfind
  obtain ⟨above, habove⟩ := exists_walks h.acyclic hfind fun b hb d hbd =>
    h.has_of_reflTransGen (h.closed cls hmem b hb) hbd
  refine ⟨above, superclasses_eq_ok.2 ⟨cls, hfind, habove⟩, ?_⟩
  by_cases hlast : cls.super = none
  · rw [← hname, (h.root cls hmem).1 hlast]
    exact List.mem_cons_self
  · exact List.mem_cons_of_mem _ (h.root_mem habove hlast)

theorem exists_isSubclassOf (ha : t.has a = true) (b : String) :
    ∃ r, t.isSubclassOf a b = .ok r := by
  obtain ⟨above, habove, -⟩ := h.exists_superclasses ha
  unfold isSubclassOf
  split
  · exact ⟨true, rfl⟩
  · rw [habove]
    exact ⟨_, rfl⟩

/-! ### The order of classes -/

theorem isSubclassOf_root (ha : t.has a = true) : t.isSubclassOf a objectClass = .ok true := by
  obtain ⟨above, habove, hroot⟩ := h.exists_superclasses ha
  exact (isSubclassOf_iff habove).2 hroot

theorem eq_root (hb : t.isSubclassOf objectClass b = .ok true) : b = objectClass := by
  rcases isSubclassOf_eq_true.1 hb with rfl | ⟨cls, above, hfind, habove, hmem⟩
  · rfl
  · obtain ⟨hcls, hname⟩ := mem_of_find? hfind
    rw [(h.root cls hcls).2 hname] at habove
    cases habove
    cases hmem

theorem eq_root_of_interface (hfind : t.find? a = some cls) (hinterface : cls.isInterface = true)
    (hab : t.isSubclassOf a b = .ok true) : b = a ∨ b = objectClass := by
  rcases isSubclassOf_eq_true.1 hab with rfl | ⟨cls', above, hfind', habove, hmem⟩
  · exact .inl rfl
  · cases hfind.symm.trans hfind'
    right
    rw [h.belowRoot cls (mem_of_find? hfind).1 hinterface] at habove
    cases habove with
    | up _ hroot hrest =>
      obtain ⟨hcls, hname⟩ := mem_of_find? hroot
      rw [(h.root _ hcls).2 hname] at hrest
      cases hrest
      exact List.mem_singleton.1 hmem

/-- The common superclass of two classes is the least class that is above both. -/
theorem exists_commonSuperclass (ha : t.has a = true) (hb : t.has b = true) :
    ∃ d, t.commonSuperclass a b = .ok d ∧ t.has d = true ∧
      t.isSubclassOf a d = .ok true ∧ t.isSubclassOf b d = .ok true ∧
      ∀ e, t.isSubclassOf a e = .ok true → t.isSubclassOf b e = .ok true →
        t.isSubclassOf d e = .ok true := by
  by_cases hab : a = b
  · subst hab
    have hself := isSubclassOf_self t a
    exact ⟨a, by simp [commonSuperclass], ha, hself, hself, fun e hae _ => hae⟩
  obtain ⟨above, habove, hroot⟩ := h.exists_superclasses ha
  obtain ⟨other, hother, hroot'⟩ := h.exists_superclasses hb
  obtain ⟨d, hcommon, -, hnear⟩ := exists_commonSuperclass_of_climbs hab habove hother
  obtain ⟨hda, hdb⟩ := hnear.shared ⟨objectClass, hroot, hroot'⟩
  have had : t.isSubclassOf a d = .ok true := (isSubclassOf_iff habove).2 hda
  have hbd : t.isSubclassOf b d = .ok true := (isSubclassOf_iff hother).2 hdb
  refine ⟨d, hcommon, has_of_isSubclassOf ha had, had, hbd, fun e hae hbe => ?_⟩
  obtain ⟨rest, hrest, he⟩ := hnear.least e ((isSubclassOf_iff habove).1 hae)
    ((isSubclassOf_iff hother).1 hbe)
  exact (isSubclassOf_iff hrest).2 he

end IsTree

end Bytecode.ClassTable
