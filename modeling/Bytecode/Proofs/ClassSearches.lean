import Bytecode.Proofs.ClassTree

/-!
Questions that a class table can answer.

A question about a class leads to the classes and interfaces above it. As long as all of these are
in the table and the superclasses do not go round in a circle, there is an answer.

* `Holds.exists_superclasses`, `Holds.exists_isSubclassOf`, `Holds.exists_commonSuperclass`: the
  order of such classes can be told;
* `search_fails`, `Holds.not_misses`: a search fails only for a class that is missing.
-/
namespace Bytecode.ClassTable

/-- The class `a` has the interface or the superclass `b`. -/
def Inherits (t : ClassTable) (a b : String) : Prop :=
  ∃ cls, t.find? a = some cls ∧ b ∈ cls.interfaces ++ cls.super.toList

/-- A class is there, and so are its interfaces and its superclass, those above them and so on. -/
def Holds (t : ClassTable) (name : String) : Prop :=
  ∀ above, Relation.ReflTransGen t.Inherits name above → t.has above = true

variable {t : ClassTable} {name desc a b d : String} {cls : Class}

theorem Extends.inherits (h : t.Extends a b) : t.Inherits a b := by
  obtain ⟨cls, hfind, hsuper⟩ := h
  exact ⟨cls, hfind, by simp [hsuper]⟩

/-- A table that has all interfaces and superclasses of its classes has all that is above them. -/
theorem holds_of_closed
    (hclosed : ∀ cls ∈ t.classes, ∀ b ∈ cls.interfaces ++ cls.super.toList, t.has b = true)
    (ha : t.has a = true) : t.Holds a := by
  intro above habove
  induction habove with
  | refl => exact ha
  | tail _ hstep =>
    obtain ⟨cls, hfind, hmem⟩ := hstep
    exact hclosed cls (mem_of_find? hfind).1 _ hmem

namespace Holds

theorem has (h : t.Holds a) : t.has a = true :=
  h a .refl

theorem of_extends (h : t.Holds a) (hab : Relation.ReflTransGen t.Extends a b) : t.Holds b :=
  fun above habove =>
    h above ((Relation.ReflTransGen.mono (fun _ _ => Extends.inherits) a b hab).trans habove)

theorem exists_find? (h : t.Holds a) : ∃ cls, t.find? a = some cls :=
  has_iff.1 h.has

end Holds

/-! ### The order of classes -/

theorem Walks.reflTransGen {super : Option String} {seen above : List String}
    (h : t.Walks super seen above) (hb : b ∈ above) :
    ∃ first ∈ super, Relation.ReflTransGen t.Extends first b := by
  induction h with
  | top => cases hb
  | @up super cls _ _ _ hfind _ ih =>
    refine ⟨super, rfl, ?_⟩
    rcases List.mem_cons.1 hb with rfl | hb
    · exact .refl
    · obtain ⟨first, hfirst, hreach⟩ := ih hb
      exact .head ⟨cls, hfind, hfirst⟩ hreach

section Order

variable (hacyclic : ∀ name, ¬Relation.TransGen t.Extends name name)
include hacyclic

theorem Holds.exists_superclasses (h : t.Holds a) :
    ∃ above, t.superclasses a = .ok above ∧ ∀ b ∈ above, t.Holds b := by
  obtain ⟨cls, hfind⟩ := h.exists_find?
  have hstep : ∀ b ∈ cls.super, t.Extends a b := fun b hb => ⟨cls, hfind, hb⟩
  obtain ⟨above, habove⟩ := exists_walks hacyclic hfind fun b hb d hbd =>
    (h.of_extends (.head (hstep b hb) hbd)).has
  refine ⟨above, superclasses_eq_ok.2 ⟨cls, hfind, habove⟩, fun b hb => ?_⟩
  obtain ⟨first, hfirst, hreach⟩ := habove.reflTransGen hb
  exact h.of_extends (.head (hstep first hfirst) hreach)

theorem Holds.exists_isSubclassOf (h : t.Holds a) (b : String) :
    ∃ r, t.isSubclassOf a b = .ok r := by
  obtain ⟨above, habove, -⟩ := h.exists_superclasses hacyclic
  unfold isSubclassOf
  rw [habove]
  split
  · exact ⟨true, rfl⟩
  · exact ⟨_, rfl⟩

theorem Holds.exists_commonSuperclass (ha : t.Holds a) (hb : t.Holds b)
    (hroot : t.Holds objectClass) : ∃ d, t.commonSuperclass a b = .ok d ∧ t.Holds d := by
  obtain ⟨above, habove, -⟩ := ha.exists_superclasses hacyclic
  obtain ⟨other, hother, hheld⟩ := hb.exists_superclasses hacyclic
  unfold commonSuperclass
  rw [habove, hother]
  split
  · exact ⟨a, rfl, ha⟩
  · refine ⟨_, rfl, ?_⟩
    cases hfound : (b :: other).find? (a :: above).contains with
    | none => exact hroot
    | some d =>
      rcases List.mem_cons.1 (List.mem_of_find?_eq_some hfound) with rfl | hd
      · exact hb
      · exact hheld d hd

end Order

/-! ### Missing classes -/

/-- The error names a missing class, which has the property `P`. -/
def Misses (t : ClassTable) (P : String → Prop) (e : HierarchyError) : Prop :=
  ∃ missing, e = .classNotFound missing ∧ P missing ∧ t.find? missing = none

theorem lookup_fails {P : String → Prop} (ha : P a) : FailsOnly (t.Misses P) (t.lookup a) := by
  unfold lookup
  split
  · exact .ok _
  · next hnone => exact .error ⟨a, rfl, ha, hnone⟩

/-- A search misses only classes above those it starts from. -/
theorem search_fails {α : Type} {P : String → Prop} (hup : ∀ a b, P a → t.Inherits a b → P b)
    (stop : String → Option α) (visit : Class → Option α) {work : List String} (seen : List String)
    (hwork : ∀ n ∈ work, P n) : FailsOnly (t.Misses P) (t.search stop visit work seen) := by
  fun_induction t.search stop visit work seen with
  | case1 => exact .ok _
  | case2 => exact .ok _
  | case3 seen n work _ _ ih => exact ih fun m hm => hwork m (List.mem_cons_of_mem _ hm)
  | case4 seen n work _ _ hnone => exact .error ⟨n, rfl, hwork n List.mem_cons_self, hnone⟩
  | case5 => exact .ok _
  | case6 seen n work _ _ cls hfind _ _ ih =>
    refine ih fun m hm => ?_
    rcases List.mem_append.1 hm with hm | hm
    · exact hup n m (hwork n List.mem_cons_self) ⟨cls, hfind, hm⟩
    · exact hwork m (List.mem_cons_of_mem _ hm)

theorem Holds.not_misses {e : HierarchyError} (h : t.Holds a) :
    ¬t.Misses (Relation.ReflTransGen t.Inherits a) e := by
  rintro ⟨missing, -, habove, hnone⟩
  obtain ⟨cls, hfind⟩ := has_iff.1 (h missing habove)
  cases hnone.symm.trans hfind

end Bytecode.ClassTable
