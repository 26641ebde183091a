import Bytecode.Proofs.Assignment

/-!
The order of types over class tables that are trees, and their joins in it.

The types of objects are ordered by `Hierarchy.Under`. A type is sealed unless its element class is
an interface that other classes extend. The join of two types is above both, and under every sealed
type that is above both.

Main statement: `ClassTable.IsTree.exists_joins`, the join of two types, in the order of types.
-/
namespace Bytecode

open ValueType Hierarchy

theorem FieldType.array_inj {s u : FieldType} (h : s.array = u.array) : s = u := by
  cases s
  cases u
  cases h
  rfl

/-! ### The order of types -/

namespace Hierarchy

variable {h : Hierarchy} {s u w : FieldType} {a b : ValueType}

theorem under_array (hsw : Under h s.array w) : w = ⟨.object objectClass, 0⟩ ∨
    ∃ w' : FieldType, w = w'.array ∧
      (s = w' ∨ (s.isReference = true ∧ w'.isReference = true ∧ Under h s w')) := by
  obtain ⟨element, dims⟩ := s
  change Under h ⟨element, dims + 1⟩ w at hsw
  cases hsw with
  | refl => exact .inr ⟨⟨element, dims⟩, rfl, .inl rfl⟩
  | root => exact .inl rfl
  | @array _ b _ n left right under => exact .inr ⟨⟨b, n⟩, rfl, .inr ⟨left, right, under⟩⟩

theorem under_class {name : String} (hw : Under h ⟨.object name, 0⟩ w) :
    ∃ above, w = ⟨.object above, 0⟩ ∧
      (above = name ∨ above = objectClass ∨ h.isSubclassOf name above = .ok true) := by
  cases hw with
  | refl => exact ⟨name, rfl, .inl rfl⟩
  | root => exact ⟨objectClass, rfl, .inr (.inl rfl)⟩
  | @subclass _ b sub => exact ⟨b, rfl, .inr (.inr sub)⟩

theorem not_under_array {name : String} : ¬Under h ⟨.object name, 0⟩ w.array := by
  intro hw
  obtain ⟨above, habove, -⟩ := under_class hw
  cases w
  cases habove

theorem Under.isReference (hsu : Under h s u) (hs : s.isReference = true) :
    u.isReference = true := by
  cases hsu with
  | refl => exact hs
  | root => rfl
  | subclass => rfl
  | array => exact FieldType.isReference_array ⟨_, _⟩

theorem Under.of_array (hs : s.isReference = true) (hu : u.isReference = true)
    (hsu : Under h s u) : Under h s.array u.array :=
  .array hs hu hsu

/-! ### The cases of a join -/

theorem join_self (a : ValueType) : h.join a a = .ok a := by
  unfold join
  simp

theorem join_null (a : ValueType) : h.join .null a = .ok a ∧ h.join a .null = .ok a := by
  unfold join
  by_cases hnull : a = .null
  · simp [hnull]
  · simp [hnull, Ne.symm hnull]

theorem join_arrays (hs : s.IsObject) (hu : u.IsObject) (hsdims : s.dims ≤ 255)
    (hudims : u.dims ≤ 255) : h.join (ofFieldType s.array) (ofFieldType u.array) =
      (h.join (ofFieldType s) (ofFieldType u)).map arrayOf := by
  by_cases heq : s = u
  · rw [heq, join_self, join_self]
    exact congrArg Except.ok (arrayOf_ofFieldType hu).symm
  have hne : ofFieldType s.array ≠ ofFieldType u.array := by
    intro hsu
    have hcomponent := component?_array hs.named hsdims
    rw [hsu, component?_array hu.named hudims] at hcomponent
    exact heq (Option.some.inj hcomponent).symm
  have hnull : ∀ s : FieldType, ofFieldType s.array ≠ .null := by
    intro s
    rw [ofFieldType_array]
    simp
  rw [join, if_neg hne, if_neg (hnull s), if_neg (hnull u),
    if_pos (by simp [isArray_ofFieldType_array])]
  split
  · next ca cb hca hcb =>
    cases hca.symm.trans (component?_array hs.named hsdims)
    cases hcb.symm.trans (component?_array hu.named hudims)
    rw [if_pos (by simp [hs.isReference, hu.isReference])]
  · next hnone =>
    exact absurd (component?_array hu.named hudims) (hnone s u (component?_array hs.named hsdims))

theorem join_root (hne : a ≠ b) (ha : a ≠ .null) (hb : b ≠ .null)
    (harray : a.isArray = true ∨ b.isArray = true)
    (hcomponents : ∀ ca cb, a.component? = some ca → b.component? = some cb →
      ca.isReference = false ∨ cb.isReference = false) :
    h.join a b = .ok (.reference objectClass) := by
  rw [join, if_neg hne, if_neg ha, if_neg hb, if_pos (by simpa using harray)]
  split
  · next ca cb hca hcb =>
    rw [if_neg]
    rcases hcomponents ca cb hca hcb with href | href
    · simp [href]
    · simp [href]
  · rfl

theorem join_classes {v w : String} (hne : v ≠ w) (hv : namesArray v = false)
    (hw : namesArray w = false) :
    h.join (.reference v) (.reference w) = h.joinClasses (.reference v) (.reference w) := by
  rw [join, if_neg (by simpa using hne), if_neg (by simp), if_neg (by simp),
    if_neg (by simp [isArray, hv, hw])]

end Hierarchy

namespace ClassTable

variable {t : ClassTable} {s u w : FieldType} {name x : String}

/-- The type of an object that the table gives, with no more dimensions than a descriptor has. -/
structure Refers (t : ClassTable) (s : FieldType) : Prop where
  isReference : s.isReference = true
  knows : t.Knows s
  dims : s.dims ≤ 255

/-- No other class is below the element class of the type if that is an interface. -/
def Sealed (t : ClassTable) (w : FieldType) : Prop :=
  ∀ name ∈ w.element.className?, t.hierarchy.knownInterface name = .ok true →
    ∀ sub, t.isSubclassOf sub name = .ok true → sub = name

theorem sealed_array : t.Sealed w.array ↔ t.Sealed w := Iff.rfl

theorem Refers.of_array (hs : t.Refers s.array) (href : s.isReference = true) : t.Refers s where
  isReference := href
  knows := hs.knows
  dims := Nat.le_of_succ_le hs.dims

theorem Refers.cases (hs : t.Refers s) :
    (∃ name, t.has name = true ∧ s = ⟨.object name, 0⟩) ∨
      ∃ s' : FieldType, s = s'.array := by
  by_cases harray : s.isArray = true
  · exact .inr (FieldType.eq_array_of_isArray harray)
  · obtain ⟨element, dims⟩ := s
    have hdims : dims = 0 := by simpa [FieldType.isArray] using harray
    subst hdims
    have href := hs.isReference
    cases element with
    | object name => exact .inl ⟨name, hs.knows name rfl, rfl⟩
    | _ => cases href

theorem refers_class (hname : t.has name = true) : t.Refers ⟨.object name, 0⟩ where
  isReference := rfl
  knows := by
    rintro _ ⟨⟩
    exact hname
  dims := by simp

/-- What the join of two types has to do with them: it is the same either way, above both, and under
all that is above both and sealed. -/
structure Joins (t : ClassTable) (s u d : FieldType) : Prop where
  refers : t.Refers d
  join : t.hierarchy.join (ofFieldType s) (ofFieldType u) = .ok (ofFieldType d)
  symm : t.hierarchy.join (ofFieldType u) (ofFieldType s) = .ok (ofFieldType d)
  left : t.hierarchy.Under s d
  right : t.hierarchy.Under u d
  least : ∀ w, t.Sealed w → t.hierarchy.Under s w → t.hierarchy.Under u w → t.hierarchy.Under d w

theorem eq_root_of_array (hs : t.Refers s) (hu : t.Refers u) (hne : s ≠ u)
    (harray : s.isArray = true ∨ u.isArray = true)
    (hcomponents : ∀ s' u', s = FieldType.array s' → u = FieldType.array u' →
      s'.isReference = false ∨ u'.isReference = false)
    (hsw : t.hierarchy.Under s w) (huw : t.hierarchy.Under u w) : w = ⟨.object objectClass, 0⟩ := by
  rcases hs.cases with ⟨a, -, rfl⟩ | ⟨s, rfl⟩
  · rcases hu.cases with ⟨b, -, rfl⟩ | ⟨u, rfl⟩
    · rcases harray with ⟨⟨⟩⟩ | ⟨⟨⟩⟩
    · rcases under_array huw with hroot | ⟨x, hx, -⟩
      · exact hroot
      · rw [hx] at hsw
        exact absurd hsw not_under_array
  rcases under_array hsw with hroot | ⟨x, hx, hsx⟩
  · exact hroot
  rcases hu.cases with ⟨b, -, rfl⟩ | ⟨u, rfl⟩
  · rw [hx] at huw
    exact absurd huw not_under_array
  rcases under_array huw with hroot | ⟨y, hy, huy⟩
  · exact hroot
  obtain rfl : x = y := FieldType.array_inj (hx.symm.trans hy)
  -- Both components would be the same or references.
  have hprimitive := hcomponents s u rfl rfl
  rcases hsx with rfl | ⟨hsref, hxref, -⟩
  · rcases huy with rfl | ⟨huref, hsref, -⟩
    · exact absurd rfl hne
    · simp [hsref, huref] at hprimitive
  · rcases huy with rfl | ⟨huref, -, -⟩
    · simp [hsref, hxref] at hprimitive
    · simp [hsref, huref] at hprimitive

theorem joins_self (hs : t.Refers s) : t.Joins s s s where
  refers := hs
  join := join_self _
  symm := join_self _
  left := .refl s
  right := .refl s
  least := fun _ _ hsw _ => hsw

namespace IsTree

variable (ht : t.IsTree)
include ht

theorem ordered : t.hierarchy.Ordered where
  trans := isSubclassOf_trans
  top := ht.eq_root

theorem isObject (hs : t.Refers s) : s.IsObject where
  isReference := hs.isReference
  named := by
    intro name hname
    exact ht.isClassName (hs.knows name hname)
  dims := Nat.le_trans hs.dims (by decide)

theorem under_antisymm (hsu : t.hierarchy.Under s u) (hus : t.hierarchy.Under u s) : s = u := by
  induction hsu with
  | refl => rfl
  | root =>
    obtain ⟨above, rfl, rfl | rfl | hsub⟩ := under_class hus
    · rfl
    · rfl
    · rw [ht.eq_root hsub]
  | @subclass a b hab =>
    obtain ⟨above, habove, rfl | rfl | hba⟩ := under_class hus
    · rw [habove]
    · cases habove
      rw [ht.eq_root hab]
    · cases habove
      rw [isSubclassOf_antisymm hab hba]
  | @array a b m n _ _ _ ih =>
    obtain hroot | ⟨w, hw, heq | ⟨-, -, hunder⟩⟩ :=
      under_array (s := ⟨b, n⟩) hus
    · cases hroot
    · cases hw
      cases heq
      rfl
    · cases hw
      cases ih hunder
      rfl

/-! ### Joins of types -/

/-- Above an interface and another class there is the root, and nothing else that is sealed. -/
theorem eq_root_of_sealed {a b e : String} (hab : a ≠ b)
    (ha : t.hierarchy.knownInterface a = .ok true) (he : t.Sealed ⟨.object e, 0⟩)
    (hae : t.isSubclassOf a e = .ok true) (hbe : t.isSubclassOf b e = .ok true) :
    e = objectClass := by
  obtain ⟨cls, hfind, hcls⟩ := knownInterface_eq_ok.1 ha
  rcases ht.eq_root_of_interface hfind hcls hae with rfl | hroot
  · exact absurd (he e rfl ha b hbe).symm hab
  · exact hroot

theorem exists_joinClasses {a b : String} (hab : a ≠ b) (ha : t.has a = true)
    (hb : t.has b = true) : ∃ d, t.has d = true ∧
      t.hierarchy.joinClasses (.reference a) (.reference b) = .ok (.reference d) ∧
      t.hierarchy.joinClasses (.reference b) (.reference a) = .ok (.reference d) ∧
      t.isSubclassOf a d = .ok true ∧ t.isSubclassOf b d = .ok true ∧
      ∀ e, t.Sealed ⟨.object e, 0⟩ → t.isSubclassOf a e = .ok true →
        t.isSubclassOf b e = .ok true → t.isSubclassOf d e = .ok true := by
  obtain ⟨ia, hia⟩ := exists_knownInterface ha
  obtain ⟨ib, hib⟩ := exists_knownInterface hb
  have hroots := And.intro (ht.isSubclassOf_root ha) (ht.isSubclassOf_root hb)
  have hroot : ∀ {a b}, t.hierarchy.knownInterface a = .ok true → a ≠ b →
      ∀ e, t.Sealed ⟨.object e, 0⟩ → t.isSubclassOf a e = .ok true →
        t.isSubclassOf b e = .ok true → t.isSubclassOf objectClass e = .ok true := by
    intro a b hinterface hne e he hae hbe
    rw [ht.eq_root_of_sealed hne hinterface he hae hbe]
    exact isSubclassOf_self t _
  simp only [joinClasses, name, hia, hib]
  cases ia with
  | true =>
    refine ⟨objectClass, ht.hasRoot, rfl, ?_, hroots.1, hroots.2, hroot hia hab⟩
    cases ib <;> rfl
  | false =>
    cases ib with
    | true =>
      refine ⟨objectClass, ht.hasRoot, rfl, rfl, hroots.1, hroots.2, ?_⟩
      intro e he hae hbe
      exact hroot hib hab.symm e he hbe hae
    | false =>
      obtain ⟨d, hd, hhas, had, hbd, hleast⟩ := ht.exists_commonSuperclass ha hb
      obtain ⟨d', hd', -, hbd', had', hleast'⟩ := ht.exists_commonSuperclass hb ha
      obtain rfl : d = d' := isSubclassOf_antisymm (hleast d' had' hbd') (hleast' d hbd had)
      have hcommon : t.hierarchy.commonSuperclass a b = .ok d := hd
      have hcommon' : t.hierarchy.commonSuperclass b a = .ok d := hd'
      exact ⟨d, hhas, by rw [hcommon]; rfl, by rw [hcommon']; rfl, had, hbd,
        fun e _ hae hbe => hleast e hae hbe⟩

theorem ofFieldType_inj (hs : t.Refers s) (hu : t.Refers u)
    (heq : ofFieldType s = ofFieldType u) : s = u := by
  rcases hs.cases with ⟨a, ha, rfl⟩ | ⟨s, rfl⟩
  · rcases hu.cases with ⟨b, hb, rfl⟩ | ⟨u, rfl⟩
    · cases heq
      rfl
    · have harray := isArray_ofFieldType_array u
      rw [← heq, ofFieldType_class, isArray, (ht.isClassName ha).namesArray] at harray
      cases harray
  · rcases hu.cases with ⟨b, hb, rfl⟩ | ⟨u, rfl⟩
    · have harray := isArray_ofFieldType_array s
      rw [heq, ofFieldType_class, isArray, (ht.isClassName hb).namesArray] at harray
      cases harray
    · rw [ofFieldType_array, ofFieldType_array, ← FieldType.descriptor_array,
        ← FieldType.descriptor_array] at heq
      exact FieldType.descriptor_inj (reference.inj heq)

theorem eq_array_of_component? {c : FieldType} (hs : t.Refers s)
    (hc : (ofFieldType s).component? = some c) : s = c.array := by
  rcases hs.cases with ⟨a, ha, rfl⟩ | ⟨s, rfl⟩
  · obtain ⟨name, hname, harray⟩ := component?_eq_some hc
    cases hname
    rw [(ht.isClassName ha).namesArray] at harray
    cases harray
  · rw [eq_of_component?_array hc]

theorem joins_root (hs : t.Refers s) (hu : t.Refers u) (hne : s ≠ u)
    (harray : s.isArray = true ∨ u.isArray = true)
    (hcomponents : ∀ s' u', s = FieldType.array s' → u = FieldType.array u' →
      s'.isReference = false ∨ u'.isReference = false) : t.Joins s u ⟨.object objectClass, 0⟩ := by
  have hvalue : ∀ {s}, t.Refers s → ofFieldType s ≠ .null ∧
      (s.isArray = true → (ofFieldType s).isArray = true) := by
    intro s hs
    constructor
    · obtain ⟨name, hname⟩ := ofFieldType_of_isReference hs.isReference
      rw [hname]
      simp
    · intro harray
      obtain ⟨s, rfl⟩ := FieldType.eq_array_of_isArray harray
      exact isArray_ofFieldType_array s
  have hne' : ofFieldType s ≠ ofFieldType u := by
    intro heq
    exact hne (ht.ofFieldType_inj hs hu heq)
  have harray' := harray.imp (hvalue hs).2 (hvalue hu).2
  constructor
  · exact refers_class ht.hasRoot
  · refine join_root hne' (hvalue hs).1 (hvalue hu).1 harray' ?_
    intro ca cb hca hcb
    exact hcomponents ca cb (ht.eq_array_of_component? hs hca) (ht.eq_array_of_component? hu hcb)
  · refine join_root hne'.symm (hvalue hu).1 (hvalue hs).1 harray'.symm ?_
    intro ca cb hca hcb
    exact (hcomponents cb ca (ht.eq_array_of_component? hs hcb)
      (ht.eq_array_of_component? hu hca)).symm
  · exact .root hs.isReference
  · exact .root hu.isReference
  · intro w _ hsw huw
    rw [eq_root_of_array hs hu hne harray hcomponents hsw huw]
    exact .refl _

theorem exists_joins_class {a b : String} (hab : a ≠ b) (ha : t.has a = true)
    (hb : t.has b = true) : ∃ d, t.Joins ⟨.object a, 0⟩ ⟨.object b, 0⟩ d := by
  obtain ⟨d, hhas, hjoin, hsymm, had, hbd, hleast⟩ := ht.exists_joinClasses hab ha hb
  have hna := (ht.isClassName ha).namesArray
  have hnb := (ht.isClassName hb).namesArray
  refine ⟨⟨.object d, 0⟩, refers_class hhas, ?_, ?_, .subclass had, .subclass hbd, ?_⟩
  · exact (join_classes hab hna hnb).trans hjoin
  · exact (join_classes hab.symm hnb hna).trans hsymm
  · intro w hw haw hbw
    obtain ⟨e, rfl, hae⟩ := under_class haw
    obtain ⟨e', he', hbe⟩ := under_class hbw
    cases he'
    have hsub : ∀ {a}, t.has a = true →
        e = a ∨ e = objectClass ∨ t.hierarchy.isSubclassOf a e = .ok true →
        t.isSubclassOf a e = .ok true := by
      rintro a ha (rfl | rfl | hae)
      · exact isSubclassOf_self t _
      · exact ht.isSubclassOf_root ha
      · exact hae
    exact .subclass (hleast e hw (hsub ha hae) (hsub hb hbe))

theorem joins_array (hs : t.Refers s.array) (hu : t.Refers u.array)
    (hsref : s.isReference = true) (huref : u.isReference = true) {d : FieldType}
    (hd : t.Joins s u d) : t.Joins s.array u.array d.array := by
  have hsobject := ht.isObject (hs.of_array hsref)
  have huobject := ht.isObject (hu.of_array huref)
  have harray := arrayOf_ofFieldType (ht.isObject hd.refers)
  have hsdims := (hs.of_array hsref).dims
  have hudims := (hu.of_array huref).dims
  constructor
  · refine ⟨d.isReference_array, hd.refers.knows, ?_⟩
    have hle := hd.left.dims_le
    have hdims := hs.dims
    simp only [FieldType.array_dims] at hdims ⊢
    omega
  · rw [join_arrays hsobject huobject hsdims hudims, hd.join]
    exact congrArg Except.ok harray
  · rw [join_arrays huobject hsobject hudims hsdims, hd.symm]
    exact congrArg Except.ok harray
  · exact hd.left.of_array hsref hd.refers.isReference
  · exact hd.right.of_array huref hd.refers.isReference
  · intro w hw hsw huw
    rcases under_array hsw with rfl | ⟨w', rfl, hsw'⟩
    · exact .root d.isReference_array
    have hsw : w'.isReference = true ∧ t.hierarchy.Under s w' := by
      rcases hsw' with rfl | ⟨-, href, hunder⟩
      · exact ⟨hsref, .refl s⟩
      · exact ⟨href, hunder⟩
    rcases under_array huw with hroot | ⟨w'', hw'', huw'⟩
    · cases w'
      cases hroot
    obtain rfl := FieldType.array_inj hw''
    have huw : t.hierarchy.Under u w' := by
      rcases huw' with rfl | ⟨-, -, hunder⟩
      · exact .refl u
      · exact hunder
    exact (hd.least w' (sealed_array.1 hw) hsw.2 huw).of_array hd.refers.isReference hsw.1

/-- The join of two types is above both and under all that is above both and sealed. -/
theorem exists_joins (hs : t.Refers s) (hu : t.Refers u) : ∃ d, t.Joins s u d := by
  -- By the dimensions, since arrays of references join by their components.
  induction hn : s.dims generalizing s u with
  | zero =>
    by_cases heq : s = u
    · subst heq
      exact ⟨s, joins_self hs⟩
    rcases hs.cases with ⟨a, ha, rfl⟩ | ⟨s, rfl⟩
    · rcases hu.cases with ⟨b, hb, rfl⟩ | ⟨u, rfl⟩
      · exact ht.exists_joins_class (by simpa using heq) ha hb
      · refine ⟨_, ht.joins_root hs hu heq (.inr (by simp [FieldType.isArray])) ?_⟩
        intro s' u' hs'
        cases s'
        cases hs'
    · cases hn
  | succ n ih =>
    by_cases heq : s = u
    · subst heq
      exact ⟨s, joins_self hs⟩
    rcases hs.cases with ⟨a, ha, rfl⟩ | ⟨s, rfl⟩
    · cases hn
    have harray : s.array.isArray = true := by simp [FieldType.isArray]
    by_cases hboth : ∃ u', u = FieldType.array u' ∧ s.isReference = true ∧ u'.isReference = true
    · obtain ⟨u, rfl, hsref, huref⟩ := hboth
      obtain ⟨d, hd⟩ := ih (hs.of_array hsref) (hu.of_array huref) (Nat.succ.inj hn)
      exact ⟨d.array, ht.joins_array hs hu hsref huref hd⟩
    · refine ⟨_, ht.joins_root hs hu heq (.inl harray) ?_⟩
      intro s' u' hs' hu'
      obtain rfl := FieldType.array_inj hs'
      by_contra href
      simp only [not_or, Bool.not_eq_false] at href
      exact hboth ⟨u', hu', href.1, href.2⟩

end IsTree

end ClassTable

end Bytecode
