import Bytecode.Proofs.ClassTree

/-!
Assignments over class tables that are trees.

Every reference may be assigned to every interface, so the root and the interfaces may be assigned
to each other; still assignments can be chained.

* `ClassTable.IsTree.assignable_trans`: assignments can be chained;
* `assignable_preorder`: the whole of it.
-/
namespace Bytecode

open Hierarchy

/-! ### Assignments to arrays -/

namespace Hierarchy

open ValueType

variable {h : Hierarchy} {a b : ValueType} {v w : String}

/-- What may be assigned to an array: arrays of the same components, or of references that may be
assigned to its components. -/
theorem assignable_toArray (hw : namesArray w = true) :
    h.assignable (.reference v) (.reference w) = .ok true ↔
      v = w ∨ (namesArray v = true ∧
        ((reference v).component? = (reference w).component? ∨
          ∃ s t, (reference v).component? = some s ∧ (reference w).component? = some t ∧
            s.isReference = true ∧ t.isReference = true ∧
            h.assignable (ofFieldType s) (ofFieldType t) = .ok true)) := by
  rw [assignable]
  by_cases heq : v = w
  · simp [heq]
  simp only [reference.injEq, heq, if_false, false_or, isArray, hw, if_true]
  by_cases hv : namesArray v = true
  · simp only [hv, if_true, true_and]
    split
    · next s t hs ht =>
      rw [hs, ht]
      by_cases hboth : (s.isReference && t.isReference) = true
      · rw [if_pos hboth]
        rw [Bool.and_eq_true] at hboth
        constructor
        · intro hst
          exact .inr ⟨s, t, rfl, rfl, hboth.1, hboth.2, hst⟩
        · rintro (hst | ⟨s', t', hs', ht', -, -, hst⟩)
          · cases hst
            exact assignable_self _
          · cases hs'
            cases ht'
            exact hst
      · rw [if_neg hboth]
        rw [Bool.and_eq_true] at hboth
        simp only [Except.ok.injEq, decide_eq_true_eq, Option.some.injEq]
        constructor
        · exact .inl
        · rintro (hst | ⟨s', t', rfl, rfl, hs', ht', -⟩)
          · exact hst
          · exact absurd ⟨hs', ht'⟩ hboth
    · next hnone =>
      simp only [Except.ok.injEq, decide_eq_true_eq]
      constructor
      · exact .inl
      · rintro (hst | ⟨s', t', hs', ht', -⟩)
        · exact hst
        · exact absurd ht' (hnone s' t' hs')
  · simp [hv]

theorem assignable_null (w : String) : h.assignable .null (.reference w) = .ok true := by
  unfold assignable
  rfl

theorem assignable_toNull (v : String) : h.assignable (.reference v) .null = .ok false := by
  unfold assignable
  rfl

theorem assignable_of_not_isReference (hab : a.isReference = false ∨ b.isReference = false) :
    h.assignable a b = .ok (decide (a = b)) := by
  unfold assignable
  by_cases heq : a = b
  · rw [if_pos heq, decide_eq_true heq]
  · rw [if_neg heq, decide_eq_false heq]
    cases a <;> cases b <;> simp_all [isReference]

end Hierarchy

/-! ### Types over a table -/

namespace ClassTable

open ValueType

/-- The class that a type names, if it names one, is there. -/
def Knows (t : ClassTable) (s : FieldType) : Prop :=
  ∀ name ∈ s.element.className?, t.has name = true

instance (t : ClassTable) (s : FieldType) : Decidable (t.Knows s) :=
  inferInstanceAs (Decidable (∀ name ∈ s.element.className?, t.has name = true))

/-- A value of a type that the table gives: a primitive value, null, an object of a class that is
there, or an array of any number of dimensions over one of these. -/
def HasType (t : ClassTable) (a : ValueType) : Prop :=
  a = .null ∨ ∃ s, t.Knows s ∧ a = ofFieldType s

variable {t : ClassTable} {a b d : ValueType} {v w x : String} {cls : Class}

theorem knownInterface_eq_ok {r : Bool} : t.hierarchy.knownInterface w = .ok r ↔
    ∃ cls, t.find? w = some cls ∧ cls.isInterface = r := by
  simp only [knownInterface, mapError_eq_ok, map_eq_ok, hierarchy, lookup_eq_ok]

theorem knownSubclass_eq_ok {r : Bool} :
    t.hierarchy.knownSubclass v w = .ok r ↔ t.isSubclassOf v w = .ok r :=
  mapError_eq_ok

theorem exists_knownInterface (hw : t.has w = true) :
    ∃ r, t.hierarchy.knownInterface w = .ok r := by
  obtain ⟨cls, hfind⟩ := has_iff.1 hw
  exact ⟨cls.isInterface, knownInterface_eq_ok.2 ⟨cls, hfind, rfl⟩⟩

theorem has_of_hasType (hv : t.HasType (.reference v)) (hclass : namesArray v = false) :
    t.has v = true := by
  obtain ⟨⟨⟩⟩ | ⟨s, hs, hv⟩ := hv
  by_cases harray : s.isArray = true
  · obtain ⟨s, rfl⟩ := FieldType.eq_array_of_isArray harray
    have hname := isArray_ofFieldType_array s
    rw [← hv, isArray, hclass] at hname
    cases hname
  · obtain ⟨element, dims⟩ := s
    rw [ofFieldType, if_neg harray] at hv
    cases element <;> cases hv
    exact hs v rfl

namespace IsTree

variable (ht : t.IsTree)
include ht

theorem hasType_component {c : FieldType} (ha : t.HasType a) (hc : a.component? = some c) :
    t.HasType (ofFieldType c) := by
  obtain ⟨name, rfl, hname⟩ := component?_eq_some hc
  obtain ⟨⟨⟩⟩ | ⟨s, hs, ha⟩ := ha
  by_cases harray : s.isArray = true
  · obtain ⟨s, rfl⟩ := FieldType.eq_array_of_isArray harray
    rw [ha] at hc
    rw [eq_of_component?_array hc]
    exact .inr ⟨s, hs, rfl⟩
  · -- The name of a class does not begin as a descriptor does.
    obtain ⟨element, dims⟩ := s
    rw [ofFieldType, if_neg harray] at ha
    cases element <;> cases ha
    rw [(ht.isClassName (hs name rfl)).namesArray] at hname
    cases hname

theorem exists_assignable_reference (hv : t.HasType (.reference v))
    (hw : t.HasType (.reference w)) :
    ∃ r, t.hierarchy.assignable (.reference v) (.reference w) = .ok r := by
  -- By the length of the name, since the components of an array have a shorter one.
  induction hn : v.length using Nat.strongRecOn generalizing v w with
  | _ n ih =>
    subst hn
    rw [assignable]
    by_cases heq : reference v = reference w
    · exact ⟨true, if_pos heq⟩
    rw [if_neg heq]
    by_cases harray : (reference w).isArray = true
    · simp only [harray, if_true]
      by_cases hvarray : (reference v).isArray = true
      · simp only [hvarray, if_true]
        split
        · next s u hs hu =>
          by_cases hboth : (s.isReference && u.isReference) = true
          · rw [if_pos hboth]
            rw [Bool.and_eq_true] at hboth
            obtain ⟨sname, hsname⟩ := ofFieldType_of_isReference hboth.1
            obtain ⟨uname, huname⟩ := ofFieldType_of_isReference hboth.2
            have hlt := length_name_component hs
            have hstype := ht.hasType_component hv hs
            have hutype := ht.hasType_component hw hu
            rw [hsname] at hlt hstype ⊢
            rw [huname] at hutype ⊢
            exact ih sname.length hlt hstype hutype rfl
          · exact ⟨_, if_neg hboth⟩
        · exact ⟨_, rfl⟩
      · exact ⟨false, if_neg hvarray⟩
    · simp only [harray, Bool.false_eq_true, if_false]
      by_cases hroot : w = objectClass
      · exact ⟨true, if_pos hroot⟩
      rw [if_neg hroot]
      rw [Bool.not_eq_true] at harray
      obtain ⟨r, hr⟩ := exists_knownInterface (has_of_hasType hw harray)
      rw [hr]
      cases r with
      | true => exact ⟨true, rfl⟩
      | false =>
        by_cases hvarray : (reference v).isArray = true
        · exact ⟨false, by simp [hvarray, bind, Except.bind, pure, Except.pure]⟩
        · rw [Bool.not_eq_true] at hvarray
          obtain ⟨r, hr⟩ := ht.exists_isSubclassOf (has_of_hasType hv hvarray) w
          have hsub := knownSubclass_eq_ok.2 hr
          exact ⟨r, by simp [hvarray, hsub, bind, Except.bind]⟩

/-- Between values of types that the table gives, an assignment is allowed or it is not. -/
theorem exists_assignable (ha : t.HasType a) (hb : t.HasType b) :
    ∃ r, t.hierarchy.assignable a b = .ok r := by
  by_cases hab : a.isReference = false ∨ b.isReference = false
  · exact ⟨_, assignable_of_not_isReference hab⟩
  simp only [not_or, Bool.not_eq_false] at hab
  by_cases hanull : a = .null
  · by_cases hbnull : b = .null
    · exact ⟨true, by rw [hanull, hbnull, assignable_self]⟩
    · obtain ⟨w, rfl⟩ := eq_reference_of_isReference hab.2 hbnull
      exact ⟨true, by rw [hanull, assignable_null]⟩
  obtain ⟨v, rfl⟩ := eq_reference_of_isReference hab.1 hanull
  by_cases hbnull : b = .null
  · exact ⟨false, by rw [hbnull, assignable_toNull]⟩
  · obtain ⟨w, rfl⟩ := eq_reference_of_isReference hab.2 hbnull
    exact ht.exists_assignable_reference ha hb

/-! ### Chains of assignments -/

/-- What may be assigned to the root or an interface may be assigned to what these may be assigned
to, since that is the root or an interface. -/
theorem assignable_of_interface (hw : w = objectClass ∨ t.hierarchy.knownInterface w = .ok true)
    (hclass : namesArray w = false)
    (hwx : t.hierarchy.assignable (.reference w) (.reference x) = .ok true) :
    t.hierarchy.assignable (.reference v) (.reference x) = .ok true := by
  have hx := namesArray_of_assignable hclass hwx
  rw [assignable_class hx] at hwx ⊢
  right
  rcases hwx with rfl | hroot | hinterface | ⟨hinterface, -, hsub⟩
  · rcases hw with hroot | hinterface
    · exact .inl hroot
    · exact .inr (.inl hinterface)
  · exact .inl hroot
  · exact .inr (.inl hinterface)
  · rw [knownSubclass_eq_ok] at hsub
    rcases hw with rfl | hw
    · exact .inl (ht.eq_root hsub)
    · obtain ⟨cls, hfind, hcls⟩ := knownInterface_eq_ok.1 hw
      rcases ht.eq_root_of_interface hfind hcls hsub with rfl | hroot
      · exact .inr (.inl hw)
      · exact .inl hroot

theorem assignable_reference_trans
    (hvw : t.hierarchy.assignable (.reference v) (.reference w) = .ok true)
    (hwx : t.hierarchy.assignable (.reference w) (.reference x) = .ok true) :
    t.hierarchy.assignable (.reference v) (.reference x) = .ok true := by
  -- By the length of the name, since the components of an array have a shorter one.
  induction hn : v.length using Nat.strongRecOn generalizing v w x with
  | _ n ih =>
    subst hn
    by_cases hw : namesArray w = true
    · rcases (assignable_toArray hw).1 hvw with rfl | ⟨hv, hcomponents⟩
      · exact hwx
      by_cases hx : namesArray x = true
      · rcases (assignable_toArray hx).1 hwx with rfl | ⟨-, hcomponents'⟩
        · exact hvw
        refine (assignable_toArray hx).2 (.inr ⟨hv, ?_⟩)
        rcases hcomponents with heq | ⟨s, u, hs, hu, hsref, huref, hsu⟩
        · rw [heq]
          exact hcomponents'
        rcases hcomponents' with heq | ⟨u', y, hu', hy, -, hyref, huy⟩
        · exact .inr ⟨s, u, hs, heq ▸ hu, hsref, huref, hsu⟩
        · cases hu.symm.trans hu'
          refine .inr ⟨s, y, hs, hy, hsref, hyref, ?_⟩
          obtain ⟨sname, hsname⟩ := ofFieldType_of_isReference hsref
          obtain ⟨uname, huname⟩ := ofFieldType_of_isReference huref
          obtain ⟨yname, hyname⟩ := ofFieldType_of_isReference hyref
          have hlt := length_name_component hs
          rw [hsname] at hlt hsu ⊢
          rw [huname] at hsu huy
          rw [hyname] at huy ⊢
          exact ih sname.length hlt hsu huy rfl
      · -- Arrays stand only where the root or an interface is declared.
        rw [Bool.not_eq_true] at hx
        rw [assignable_class hx] at hwx ⊢
        rcases hwx with rfl | hroot | hinterface | ⟨-, hclass, -⟩
        · cases hw.symm.trans hx
        · exact .inr (.inl hroot)
        · exact .inr (.inr (.inl hinterface))
        · cases hw.symm.trans hclass
    · rw [Bool.not_eq_true] at hw
      rcases (assignable_class hw).1 hvw with
        rfl | hroot | hinterface | ⟨-, hv, hsub⟩
      · exact hwx
      · exact ht.assignable_of_interface (.inl hroot) hw hwx
      · exact ht.assignable_of_interface (.inr hinterface) hw hwx
      · have hx := namesArray_of_assignable hw hwx
        rcases (assignable_class hx).1 hwx with
          rfl | hroot | hinterface | ⟨hinterface, -, hsub'⟩
        · exact hvw
        · exact (assignable_class hx).2 (.inr (.inl hroot))
        · exact (assignable_class hx).2 (.inr (.inr (.inl hinterface)))
        · rw [knownSubclass_eq_ok] at hsub hsub'
          have hvx := knownSubclass_eq_ok.2 (isSubclassOf_trans hsub hsub')
          exact (assignable_class hx).2 (.inr (.inr (.inr ⟨hinterface, hv, hvx⟩)))

theorem assignable_trans (hab : t.hierarchy.assignable a b = .ok true)
    (hbd : t.hierarchy.assignable b d = .ok true) : t.hierarchy.assignable a d = .ok true := by
  by_cases hne : a = b
  · rw [hne]
    exact hbd
  by_cases hne' : b = d
  · rw [← hne']
    exact hab
  have href : ∀ {a b}, a ≠ b → t.hierarchy.assignable a b = .ok true →
      a.isReference = true ∧ ∃ w, b = .reference w := by
    intro a b hne hab
    unfold assignable at hab
    cases a <;> cases b <;> simp_all [isReference]
  obtain ⟨ha, w, rfl⟩ := href hne hab
  obtain ⟨-, x, rfl⟩ := href hne' hbd
  by_cases hnull : a = .null
  · rw [hnull]
    exact assignable_null x
  · obtain ⟨v, rfl⟩ := eq_reference_of_isReference ha hnull
    exact ht.assignable_reference_trans hab hbd

end IsTree

end ClassTable

/-- Over a table that is a tree, whether a value may be assigned to a type can be told for all types
that the table gives. Every type may be assigned to itself, and assignments can be chained. What is
no reference may be assigned only to its own type, and no other type to it. -/
theorem assignable_preorder (t : ClassTable) (ht : t.IsTree) :
    (∀ a b, t.HasType a → t.HasType b → ∃ r, t.hierarchy.assignable a b = .ok r) ∧
    (∀ a, t.hierarchy.assignable a a = .ok true) ∧
    (∀ a b d, t.hierarchy.assignable a b = .ok true → t.hierarchy.assignable b d = .ok true →
      t.hierarchy.assignable a d = .ok true) ∧
    ∀ a b, a.isReference = false ∨ b.isReference = false →
      t.hierarchy.assignable a b = .ok (decide (a = b)) := by
  refine ⟨?_, ?_, ?_, ?_⟩
  · intro a b ha hb
    exact ht.exists_assignable ha hb
  · intro a
    exact Hierarchy.assignable_self a
  · intro a b d hab hbd
    exact ht.assignable_trans hab hbd
  · intro a b hab
    exact Hierarchy.assignable_of_not_isReference hab

/-- Two classes with a superclass in common, one of them with an interface. -/
def petTable : ClassTable :=
  ⟨[{ name := objectClass, super := none },
    { name := "app/Named", super := some objectClass, access := .interfaceBit },
    { name := "app/Pet", super := some objectClass },
    { name := "app/Dog", super := some "app/Pet", interfaces := ["app/Named"] },
    { name := "app/Cat", super := some "app/Pet" }]⟩

theorem isTree_petTable : petTable.IsTree where
  names := by decide
  closed := by decide
  acyclic := ClassTable.acyclic_of_rank
    (fun name => if name = objectClass then 0 else if name = "app/Pet" then 1 else 2) (by decide)
  hasRoot := by decide
  root := by decide
  belowRoot := by decide

/-- From arrays of arrays of dogs over arrays of things with a name to arrays of objects. -/
theorem assignable_preorder_petTable : petTable.IsTree ∧
    petTable.HasType (.reference "[[Lapp/Dog;") ∧ petTable.HasType (.reference "[Lapp/Cat;") ∧
    (∃ r, petTable.hierarchy.assignable (.reference "[[Lapp/Dog;") (.reference "[Lapp/Cat;") =
      .ok r) ∧
    petTable.hierarchy.assignable (.reference "[[Lapp/Dog;") (.reference "[Lapp/Named;") =
      .ok true ∧
    petTable.hierarchy.assignable (.reference "[Lapp/Named;") (.reference "[Ljava/lang/Object;") =
      .ok true ∧
    petTable.hierarchy.assignable (.reference "[[Lapp/Dog;") (.reference "[Ljava/lang/Object;") =
      .ok true ∧
    petTable.hierarchy.assignable (.uninitialized "app/Dog" 4) (.reference "app/Dog") =
      .ok false := by
  have htold : petTable.HasType (.reference "[[Lapp/Dog;") ∧
      petTable.HasType (.reference "[Lapp/Cat;") :=
    ⟨.inr ⟨⟨.object "app/Dog", 2⟩, by decide, by decide⟩,
      .inr ⟨⟨.object "app/Cat", 1⟩, by decide, by decide⟩⟩
  have hfirst : petTable.hierarchy.assignable (.reference "[[Lapp/Dog;")
      (.reference "[Lapp/Named;") = .ok true := by decide +kernel
  have hsecond : petTable.hierarchy.assignable (.reference "[Lapp/Named;")
      (.reference "[Ljava/lang/Object;") = .ok true := by decide +kernel
  obtain ⟨htotal, -, htrans, hmarker⟩ := assignable_preorder petTable isTree_petTable
  exact ⟨isTree_petTable, htold.1, htold.2, htotal _ _ htold.1 htold.2, hfirst, hsecond,
    htrans _ _ _ hfirst hsecond, hmarker _ _ (.inl rfl)⟩

end Bytecode
