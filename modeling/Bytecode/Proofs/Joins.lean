import Bytecode.Proofs.TypeJoins

/-!
Joins and assignments over class tables that are trees.

Whatever may be assigned to a type is what is under one type, which is sealed, and the join of two
types is under every sealed type that is above both. So it is the least type that both may be
assigned to.

* `join_leastUpperBound`: joins and assignments together;
* `join_not_assoc`: with classes that extend an interface, the order of joins matters.
-/
namespace Bytecode

open ValueType FieldType Hierarchy

namespace ClassTable

variable {t : ClassTable} {s u w : FieldType} {name x : String}

/-! ### What may be assigned to a type -/

theorem assignable_iff_under_root (hx : namesArray x = false)
    (hroot : x = objectClass ∨ t.hierarchy.knownInterface x = .ok true) (hu : t.Refers u) :
    t.hierarchy.assignable (ofFieldType u) (.reference x) = .ok true ↔
      t.hierarchy.Under u ⟨.object objectClass, 0⟩ := by
  obtain ⟨v, hv⟩ := ofFieldType_of_isReference hu.isReference
  constructor
  · intro _
    exact .root hu.isReference
  · intro _
    rw [hv, assignable_class hx]
    rcases hroot with hroot | hinterface
    · exact .inr (.inl hroot)
    · exact .inr (.inr (.inl hinterface))

namespace IsTree

variable (ht : t.IsTree)
include ht

theorem sealed_root : t.Sealed ⟨.object objectClass, 0⟩ := by
  rintro _ ⟨⟩ hinterface
  obtain ⟨cls, hfind, hcls⟩ := knownInterface_eq_ok.1 hinterface
  obtain ⟨hmem, hname⟩ := mem_of_find? hfind
  cases ((ht.root cls hmem).2 hname).symm.trans (ht.belowRoot cls hmem hcls)

theorem assignable_iff_under_class (hx : t.has x = true) (hroot : x ≠ objectClass)
    (hinterface : t.hierarchy.knownInterface x = .ok false) (hu : t.Refers u) :
    t.hierarchy.assignable (ofFieldType u) (.reference x) = .ok true ↔
      t.hierarchy.Under u ⟨.object x, 0⟩ := by
  have hclass := (ht.isClassName hx).namesArray
  rcases hu.cases with ⟨a, ha, rfl⟩ | ⟨u, rfl⟩
  · rw [ofFieldType_class, assignable_class hclass]
    constructor
    · rintro (rfl | hroot' | hinterface' | ⟨-, -, hsub⟩)
      · exact .refl _
      · exact absurd hroot' hroot
      · cases hinterface.symm.trans hinterface'
      · exact .subclass (knownSubclass_eq_ok.1 hsub)
    · intro hax
      obtain ⟨above, habove, rfl | rfl | hsub⟩ := under_class hax
      · cases habove
        exact .inl rfl
      · cases habove
        exact absurd rfl hroot
      · cases habove
        exact .inr (.inr (.inr ⟨hinterface, (ht.isClassName ha).namesArray,
          knownSubclass_eq_ok.2 hsub⟩))
  · have harray := isArray_ofFieldType_array u
    rw [ofFieldType_array] at harray ⊢
    rw [assignable_class hclass]
    constructor
    · rintro (rfl | hroot' | hinterface' | ⟨-, hu', -⟩)
      · cases hclass.symm.trans harray
      · exact absurd hroot' hroot
      · cases hinterface.symm.trans hinterface'
      · cases hu'.symm.trans harray
    · intro hux
      obtain hroot' | ⟨w, hw, -⟩ := under_array hux
      · cases hroot'
        exact absurd rfl hroot
      · cases w
        cases hw

theorem assignable_class_iff_under_array {a : String} (ha : t.has a = true)
    (hx : namesArray x = true) :
    t.hierarchy.assignable (ofFieldType ⟨.object a, 0⟩) (.reference x) = .ok true ↔
      t.hierarchy.Under ⟨.object a, 0⟩ w.array := by
  constructor
  · intro hax
    cases hx.symm.trans (namesArray_of_assignable (ht.isClassName ha).namesArray hax)
  · intro haw
    exact absurd haw not_under_array

theorem assignable_iff_under_array {target w : FieldType} (hx : namesArray x = true)
    (hcomponent : (reference x).component? = some target) (htarget : target.isReference = true)
    (hw : w.isReference = true)
    (hiff : ∀ u, t.Refers u →
      (t.hierarchy.assignable (ofFieldType u) (ofFieldType target) = .ok true ↔
        t.hierarchy.Under u w)) (hu : t.Refers u) :
    t.hierarchy.assignable (ofFieldType u) (.reference x) = .ok true ↔
      t.hierarchy.Under u w.array := by
  rcases hu.cases with ⟨a, ha, rfl⟩ | ⟨u, rfl⟩
  · exact ht.assignable_class_iff_under_array ha hx
  rw [assignable_array hx (named_array.1 (ht.isObject hu).named) (Nat.le_of_succ_le hu.dims)]
  simp only [hcomponent, Option.some.injEq, exists_eq_left', htarget, Bool.and_true]
  by_cases huref : u.isReference = true
  · rw [if_pos huref, hiff u (hu.of_array huref)]
    constructor
    · intro huw
      exact huw.of_array huref hw
    · intro huw
      obtain hroot | ⟨w', hw', heq | ⟨-, -, hunder⟩⟩ := under_array huw
      · cases w
        cases hroot
      · rw [heq, array_inj hw']
        exact .refl _
      · rw [array_inj hw']
        exact hunder
  · rw [if_neg huref]
    constructor
    · rintro rfl
      exact absurd htarget huref
    · intro huw
      obtain hroot | ⟨w', hw', heq | ⟨huref', -⟩⟩ := under_array huw
      · cases w
        cases hroot
      · rw [heq, ← array_inj hw'] at huref
        exact absurd hw huref
      · exact absurd huref' huref

theorem assignable_iff_under_primitives {target : FieldType} (hx : namesArray x = true)
    (hcomponent : (reference x).component? = some target) (htarget : target.isReference = false)
    (hu : t.Refers u) :
    t.hierarchy.assignable (ofFieldType u) (.reference x) = .ok true ↔
      t.hierarchy.Under u target.array := by
  rcases hu.cases with ⟨a, ha, rfl⟩ | ⟨u, rfl⟩
  · exact ht.assignable_class_iff_under_array ha hx
  rw [assignable_array hx (named_array.1 (ht.isObject hu).named) (Nat.le_of_succ_le hu.dims)]
  simp only [hcomponent, Option.some.injEq, exists_eq_left', htarget, Bool.and_false,
    Bool.false_eq_true, if_false]
  constructor
  · rintro rfl
    exact .refl _
  · intro huw
    obtain hroot | ⟨w', hw', heq | ⟨-, hwref, -⟩⟩ := under_array huw
    · cases target
      cases hroot
    · rw [heq, array_inj hw']
    · rw [← array_inj hw', htarget] at hwref
      cases hwref

theorem exists_widest_class (hx : namesArray x = false) (hs : t.Refers s)
    (hsx : t.hierarchy.assignable (ofFieldType s) (.reference x) = .ok true) :
    ∃ w, t.Sealed w ∧ ∀ u, t.Refers u →
      (t.hierarchy.assignable (ofFieldType u) (.reference x) = .ok true ↔
        t.hierarchy.Under u w) := by
  by_cases hroot : x = objectClass ∨ t.hierarchy.knownInterface x = .ok true
  · exact ⟨_, ht.sealed_root, fun u hu => assignable_iff_under_root hx hroot hu⟩
  rw [not_or] at hroot
  have hhas : t.has x = true := by
    obtain ⟨v, hv⟩ := ofFieldType_of_isReference hs.isReference
    rw [hv, assignable_class hx] at hsx
    rcases hsx with rfl | hroot' | hinterface | ⟨hinterface, -⟩
    · exact has_of_hasType (.inr ⟨s, hs.knows, hv.symm⟩) hx
    · exact absurd hroot' hroot.1
    · exact absurd hinterface hroot.2
    · obtain ⟨cls, hfind, -⟩ := knownInterface_eq_ok.1 hinterface
      exact has_iff.2 ⟨cls, hfind⟩
  obtain ⟨r, hr⟩ := exists_knownInterface hhas
  cases r with
  | true => exact absurd hr hroot.2
  | false =>
    refine ⟨⟨.object x, 0⟩, ?_, fun u hu => ht.assignable_iff_under_class hhas hroot.1 hr hu⟩
    rintro _ ⟨⟩ hinterface
    exact absurd hinterface hroot.2

/-- What may be assigned to a type is what is under one type, which is sealed. -/
theorem exists_widest (hs : t.Refers s)
    (hsx : t.hierarchy.assignable (ofFieldType s) (.reference x) = .ok true) :
    ∃ w, t.Sealed w ∧ ∀ u, t.Refers u →
      (t.hierarchy.assignable (ofFieldType u) (.reference x) = .ok true ↔
        t.hierarchy.Under u w) := by
  induction hn : s.dims generalizing s x with
  | zero =>
    rcases hs.cases with ⟨a, ha, rfl⟩ | ⟨s, rfl⟩
    · have hx := namesArray_of_assignable (ht.isClassName ha).namesArray hsx
      exact ht.exists_widest_class hx hs hsx
    · cases hn
  | succ n ih =>
    rcases hs.cases with ⟨a, ha, rfl⟩ | ⟨s, rfl⟩
    · cases hn
    by_cases hx : namesArray x = true
    · have hnamed := named_array.1 (ht.isObject hs).named
      obtain ⟨target, hcomponent, hassign⟩ :=
        (assignable_array hx hnamed (Nat.le_of_succ_le hs.dims)).1 hsx
      by_cases htarget : target.isReference = true
      · have hsref : s.isReference = true := by
          by_contra hsref
          rw [if_neg (by simp [hsref])] at hassign
          rw [hassign] at hsref
          exact hsref htarget
        rw [if_pos (by simp [hsref, htarget])] at hassign
        obtain ⟨y, hy⟩ := ofFieldType_of_isReference htarget
        rw [hy] at hassign
        obtain ⟨w, hw, hiff⟩ := ih (hs.of_array hsref) hassign (Nat.succ.inj hn)
        have hwref := ((hiff s (hs.of_array hsref)).1 hassign).isReference hsref
        rw [← hy] at hiff
        exact ⟨w.array, hw, fun u hu =>
          ht.assignable_iff_under_array hx hcomponent htarget hwref hiff hu⟩
      · rw [Bool.not_eq_true] at htarget
        refine ⟨target.array, ?_, fun u hu =>
          ht.assignable_iff_under_primitives hx hcomponent htarget hu⟩
        intro name hname
        obtain ⟨element, dims⟩ := target
        cases element with
        | object => simp [FieldType.isReference] at htarget
        | _ => cases hname
    · rw [Bool.not_eq_true] at hx
      exact ht.exists_widest_class hx hs hsx

/-! ### Joins of values -/

theorem assignable_under (hs : t.Refers s) (hu : t.Refers u) (hsu : t.hierarchy.Under s u)
    (hux : t.hierarchy.assignable (ofFieldType u) (.reference x) = .ok true) :
    t.hierarchy.assignable (ofFieldType s) (.reference x) = .ok true := by
  obtain ⟨w, -, hiff⟩ := ht.exists_widest hu hux
  exact (hiff s hs).2 (hsu.trans ht.ordered ((hiff u hu).1 hux))

/-- A join may be assigned to all that both of its sides may be assigned to, and they to it. -/
theorem assignable_join {d : FieldType} (hs : t.Refers s) (hu : t.Refers u)
    (hd : t.Joins s u d) :
    t.hierarchy.assignable (ofFieldType s) (ofFieldType d) = .ok true ∧
    t.hierarchy.assignable (ofFieldType u) (ofFieldType d) = .ok true ∧
    ∀ b, t.hierarchy.assignable (ofFieldType s) b = .ok true →
      t.hierarchy.assignable (ofFieldType u) b = .ok true →
      t.hierarchy.assignable (ofFieldType d) b = .ok true := by
  have hself : t.hierarchy.assignable (ofFieldType d) (ofFieldType d) = .ok true :=
    assignable_self _
  obtain ⟨dname, hdname⟩ := ofFieldType_of_isReference hd.refers.isReference
  obtain ⟨sname, hsname⟩ := ofFieldType_of_isReference hs.isReference
  refine ⟨?_, ?_, ?_⟩
  · rw [hdname] at hself ⊢
    exact ht.assignable_under hs hd.refers hd.left (hdname ▸ hself)
  · rw [hdname] at hself ⊢
    exact ht.assignable_under hu hd.refers hd.right (hdname ▸ hself)
  · intro b hsb hub
    obtain ⟨x, rfl⟩ := eq_reference_of_assignable (hsname ▸ hsb)
    obtain ⟨w, hw, hiff⟩ := ht.exists_widest hs hsb
    exact (hiff d hd.refers).2 (hd.least w hw ((hiff s hs).1 hsb) ((hiff u hu).1 hub))

theorem joins_assoc (hsealed : ∀ w, t.Sealed w) {d e f g : FieldType} (hd : t.Joins s u d)
    (he : t.Joins u w e) (hf : t.Joins d w f) (hg : t.Joins s e g) : f = g := by
  have htrans : ∀ {x y z}, t.hierarchy.Under x y → t.hierarchy.Under y z → t.hierarchy.Under x z :=
    fun hxy hyz => hxy.trans ht.ordered hyz
  apply ht.under_antisymm
  · have hdg := hd.least g (hsealed g) hg.left (htrans he.left hg.right)
    exact hf.least g (hsealed g) hdg (htrans he.right hg.right)
  · have hef := he.least f (hsealed f) (htrans hd.right hf.left) hf.right
    exact hg.least f (hsealed f) (htrans hd.left hf.left) hef

end IsTree

/-- No class has an interface for its superclass. -/
def ExtendsClasses (t : ClassTable) : Prop :=
  ∀ cls ∈ t.classes, ∀ super ∈ cls.super, t.hierarchy.knownInterface super ≠ .ok true

theorem Walks.exists_super {super : Option String} {seen above : List String} {b : String}
    (h : t.Walks super seen above) (hb : b ∈ above) :
    super = some b ∨ ∃ cls ∈ t.classes, cls.super = some b := by
  induction h with
  | top => cases hb
  | @up super cls _ _ _ hfind _ ih =>
    rcases List.mem_cons.1 hb with rfl | hb
    · exact .inl rfl
    · rcases ih hb with hsuper | hsuper
      · exact .inr ⟨cls, (mem_of_find? hfind).1, hsuper⟩
      · exact .inr hsuper

theorem ExtendsClasses.sealed (h : t.ExtendsClasses) (w : FieldType) : t.Sealed w := by
  intro name _ hinterface sub hsub
  rcases isSubclassOf_eq_true.1 hsub with rfl | ⟨cls, above, hfind, habove, hmem⟩
  · rfl
  obtain ⟨cls, hcls, hsuper⟩ : ∃ cls ∈ t.classes, cls.super = some name := by
    rcases habove.exists_super hmem with hsuper | hsuper
    · exact ⟨cls, (mem_of_find? hfind).1, hsuper⟩
    · exact hsuper
  exact absurd hinterface (h cls hcls name hsuper)

/-- A value that is null or an object of a type that the table gives. -/
def IsObject (t : ClassTable) (a : ValueType) : Prop :=
  a = .null ∨ ∃ s, t.Refers s ∧ a = ofFieldType s

namespace IsTree

variable (ht : t.IsTree) {a b d : ValueType}
include ht

/-- Two values have a join, which is the same either way and the least that both may be assigned
to. -/
theorem exists_join (ha : t.IsObject a) (hb : t.IsObject b) : ∃ d, t.IsObject d ∧
    t.hierarchy.join a b = .ok d ∧ t.hierarchy.join b a = .ok d ∧
    t.hierarchy.assignable a d = .ok true ∧ t.hierarchy.assignable b d = .ok true ∧
    ∀ w, t.hierarchy.assignable a w = .ok true → t.hierarchy.assignable b w = .ok true →
      t.hierarchy.assignable d w = .ok true := by
  have hnull : ∀ {a}, t.IsObject a → t.hierarchy.assignable .null a = .ok true := by
    rintro _ (rfl | ⟨s, hs, rfl⟩)
    · exact assignable_self _
    · obtain ⟨name, hname⟩ := ofFieldType_of_isReference hs.isReference
      rw [hname]
      exact assignable_null name
  rcases ha with rfl | ⟨s, hs, rfl⟩
  · obtain ⟨hjoin, hsymm⟩ := join_null (h := t.hierarchy) b
    exact ⟨b, hb, hjoin, hsymm, hnull hb, assignable_self b, fun w _ hbw => hbw⟩
  have ha : t.IsObject (ofFieldType s) := .inr ⟨s, hs, rfl⟩
  rcases hb with rfl | ⟨u, hu, rfl⟩
  · obtain ⟨hsymm, hjoin⟩ := join_null (h := t.hierarchy) (ofFieldType s)
    exact ⟨_, ha, hjoin, hsymm, assignable_self _, hnull ha, fun w haw _ => haw⟩
  · obtain ⟨d, hd⟩ := ht.exists_joins hs hu
    obtain ⟨hleft, hright, hleast⟩ := ht.assignable_join hs hu hd
    exact ⟨_, .inr ⟨d, hd.refers, rfl⟩, hd.join, hd.symm, hleft, hright, hleast⟩

/-- Where no class extends an interface, it does not matter in which order three values join. -/
theorem join_assoc (hclasses : t.ExtendsClasses) {c : ValueType} (ha : t.IsObject a)
    (hb : t.IsObject b) (hc : t.IsObject c) : ∃ d e f,
      t.hierarchy.join a b = .ok d ∧ t.hierarchy.join b c = .ok e ∧
      t.hierarchy.join d c = .ok f ∧ t.hierarchy.join a e = .ok f := by
  have hnull := fun a => join_null (h := t.hierarchy) a
  -- Null leaves the other two to join.
  rcases ha with rfl | ⟨s, hs, rfl⟩
  · obtain ⟨e, -, he, -⟩ := ht.exists_join hb hc
    exact ⟨b, e, e, (hnull b).1, he, he, (hnull e).1⟩
  have ha : t.IsObject (ofFieldType s) := .inr ⟨s, hs, rfl⟩
  rcases hb with rfl | ⟨u, hu, rfl⟩
  · obtain ⟨f, -, hf, -⟩ := ht.exists_join ha hc
    exact ⟨_, c, f, (hnull _).2, (hnull c).1, hf, hf⟩
  rcases hc with rfl | ⟨w, hw, rfl⟩
  · obtain ⟨d, -, hd, -⟩ := ht.exists_join ha (.inr ⟨u, hu, rfl⟩)
    exact ⟨d, _, d, hd, (hnull _).2, (hnull d).2, hd⟩
  obtain ⟨d, hd⟩ := ht.exists_joins hs hu
  obtain ⟨e, he⟩ := ht.exists_joins hu hw
  obtain ⟨f, hf⟩ := ht.exists_joins hd.refers hw
  obtain ⟨g, hg⟩ := ht.exists_joins hs he.refers
  obtain rfl := ht.joins_assoc hclasses.sealed hd he hf hg
  exact ⟨_, _, _, hd.join, he.join, hf.join, hg.join⟩

end IsTree

end ClassTable

/-- Over a table that is a tree, any two of null, the classes and the arrays of up to 255 dimensions
have a join, which is the same either way and the least type that both may be assigned to. A value
joins with itself and with null at itself. Where no class extends an interface, three values join in
either order at the same type. -/
theorem join_leastUpperBound (t : ClassTable) (ht : t.IsTree) :
    (∀ a b, t.IsObject a → t.IsObject b → ∃ d, t.IsObject d ∧
      t.hierarchy.join a b = .ok d ∧ t.hierarchy.join b a = .ok d ∧
      t.hierarchy.assignable a d = .ok true ∧ t.hierarchy.assignable b d = .ok true ∧
      ∀ w, t.hierarchy.assignable a w = .ok true → t.hierarchy.assignable b w = .ok true →
        t.hierarchy.assignable d w = .ok true) ∧
    (∀ a, t.hierarchy.join a a = .ok a) ∧
    (∀ a, t.hierarchy.join .null a = .ok a ∧ t.hierarchy.join a .null = .ok a) ∧
    (t.ExtendsClasses → ∀ a b c, t.IsObject a → t.IsObject b → t.IsObject c → ∃ d e f,
      t.hierarchy.join a b = .ok d ∧ t.hierarchy.join b c = .ok e ∧
      t.hierarchy.join d c = .ok f ∧ t.hierarchy.join a e = .ok f) := by
  refine ⟨?_, Hierarchy.join_self, Hierarchy.join_null, ?_⟩
  · intro a b ha hb
    exact ht.exists_join ha hb
  · intro hclasses a b c ha hb hc
    exact ht.join_assoc hclasses ha hb hc

theorem extendsClasses_petTable : petTable.ExtendsClasses := by
  unfold ClassTable.ExtendsClasses
  decide +kernel

/-- Arrays of dogs, of cats and of things with a name. -/
theorem join_leastUpperBound_petTable : petTable.IsTree ∧ petTable.ExtendsClasses ∧
    petTable.IsObject (.reference "[Lapp/Dog;") ∧ petTable.IsObject (.reference "[Lapp/Cat;") ∧
    petTable.IsObject (.reference "[Lapp/Named;") ∧
    (∃ d, petTable.hierarchy.join (.reference "[Lapp/Dog;") (.reference "[Lapp/Cat;") = .ok d ∧
      petTable.hierarchy.assignable (.reference "[Lapp/Dog;") (.reference "[Lapp/Pet;") =
        .ok true ∧
      petTable.hierarchy.assignable (.reference "[Lapp/Cat;") (.reference "[Lapp/Pet;") =
        .ok true ∧
      petTable.hierarchy.assignable d (.reference "[Lapp/Pet;") = .ok true) ∧
    ∃ d e f, petTable.hierarchy.join (.reference "[Lapp/Dog;") (.reference "[Lapp/Cat;") = .ok d ∧
      petTable.hierarchy.join (.reference "[Lapp/Cat;") (.reference "[Lapp/Named;") = .ok e ∧
      petTable.hierarchy.join d (.reference "[Lapp/Named;") = .ok f ∧
      petTable.hierarchy.join (.reference "[Lapp/Dog;") e = .ok f := by
  have harray : ∀ name, petTable.has name = true →
      petTable.IsObject (ofFieldType ⟨.object name, 1⟩) := by
    intro name hname
    refine .inr ⟨_, ⟨rfl, ?_, by simp⟩, rfl⟩
    rintro _ ⟨⟩
    exact hname
  have hdog : petTable.IsObject (.reference "[Lapp/Dog;") := harray "app/Dog" (by decide)
  have hcat : petTable.IsObject (.reference "[Lapp/Cat;") := harray "app/Cat" (by decide)
  have hnamed : petTable.IsObject (.reference "[Lapp/Named;") := harray "app/Named" (by decide)
  have hdogPet : petTable.hierarchy.assignable (.reference "[Lapp/Dog;")
      (.reference "[Lapp/Pet;") = .ok true := by decide +kernel
  have hcatPet : petTable.hierarchy.assignable (.reference "[Lapp/Cat;")
      (.reference "[Lapp/Pet;") = .ok true := by decide +kernel
  obtain ⟨hjoin, -, -, hassoc⟩ := join_leastUpperBound petTable isTree_petTable
  obtain ⟨d, -, hd, -, -, -, hleast⟩ := hjoin _ _ hdog hcat
  exact ⟨isTree_petTable, extendsClasses_petTable, hdog, hcat, hnamed,
    ⟨d, hd, hdogPet, hcatPet, hleast _ hdogPet hcatPet⟩,
    hassoc extendsClasses_petTable _ _ _ hdog hcat hnamed⟩

/-- Two classes that extend an interface. -/
def namedTable : ClassTable :=
  ⟨[{ name := objectClass, super := none },
    { name := "app/Named", super := some objectClass, access := .interfaceBit },
    { name := "app/Dog", super := some "app/Named" },
    { name := "app/Cat", super := some "app/Named" }]⟩

theorem isTree_namedTable : namedTable.IsTree where
  names := by decide
  closed := by decide
  acyclic := ClassTable.acyclic_of_rank
    (fun name => if name = objectClass then 0 else if name = "app/Named" then 1 else 2) (by decide)
  hasRoot := by decide
  root := by decide
  belowRoot := by decide

/-- A dog and a cat join at the interface that both extend, but a dog and that interface join at the
root. So a dog, a dog and a cat do not join in either order at the same type. -/
theorem join_not_assoc : namedTable.IsTree ∧
    namedTable.IsObject (.reference "app/Dog") ∧ namedTable.IsObject (.reference "app/Cat") ∧
    ¬∃ d e f, namedTable.hierarchy.join (.reference "app/Dog") (.reference "app/Dog") = .ok d ∧
      namedTable.hierarchy.join (.reference "app/Dog") (.reference "app/Cat") = .ok e ∧
      namedTable.hierarchy.join d (.reference "app/Cat") = .ok f ∧
      namedTable.hierarchy.join (.reference "app/Dog") e = .ok f := by
  have hclass : ∀ name, namedTable.has name = true → namedTable.IsObject (.reference name) :=
    fun name hname => .inr ⟨⟨.object name, 0⟩, ClassTable.refers_class hname, rfl⟩
  refine ⟨isTree_namedTable, hclass _ (by decide), hclass _ (by decide), ?_⟩
  have hself := Hierarchy.join_self (h := namedTable.hierarchy) (.reference "app/Dog")
  have hpets : namedTable.hierarchy.join (.reference "app/Dog") (.reference "app/Cat") =
      .ok (.reference "app/Named") := by decide +kernel
  have hroot : namedTable.hierarchy.join (.reference "app/Dog") (.reference "app/Named") =
      .ok (.reference objectClass) := by decide +kernel
  rintro ⟨d, e, f, hd, he, hf, hf'⟩
  cases hself.symm.trans hd
  cases hpets.symm.trans he
  cases hpets.symm.trans hf
  have hne : (.reference objectClass : ValueType) ≠ .reference "app/Named" := by decide
  exact hne (Except.ok.inj (hroot.symm.trans hf'))

end Bytecode
