import Mathlib.Algebra.GroupWithZero.Nat
import Bytecode.Proofs.WellFormed

/-!
How often a value can change in merges.

A merge takes a reference to a superclass, to an array of such, or to the root class. A class may
have a name that reads as an array, so that a class can be merged into an array and the components
of an array into arrays in turn; but a descriptor has at most 255 dimensions, and an array with more
cannot be taken apart. So with each merge the dimensions grow, or the chain of superclasses above
the elements gets shorter, or the elements are of the root class, and from then on the dimensions
shrink.

Main statement: `ClassTable.frameHeight_merge`, a merge that changes a frame lowers its height.
-/
namespace Bytecode

open Hierarchy List

/-! ### Types behind names -/

namespace FieldType

theorem parse_of_parse_bracket {desc : String} {t : FieldType} (h : parse ("[" ++ desc) = .ok t) :
    ∃ s : FieldType, t = s.array ∧ parse desc = .ok s := by
  have hdesc := descriptor_of_parse h
  obtain ⟨hreadable, hdims⟩ := readable_of_parse h
  have harray : t.isArray = true := by
    by_contra hnot
    have hzero : t.dims = 0 := by simpa [isArray] using hnot
    obtain ⟨ch, tail, hlist, hne⟩ := t.element.exists_descriptor
    have hlists := congrArg String.toList hdesc
    rw [toList_descriptor, hzero, hlist] at hlists
    simp [String.toList_append, hne] at hlists
  obtain ⟨s, rfl⟩ := eq_array_of_isArray harray
  rw [descriptor_array] at hdesc
  have hs : s.descriptor = desc := by
    refine String.toList_inj.1 ?_
    simpa [String.toList_append] using congrArg String.toList hdesc
  refine ⟨s, rfl, ?_⟩
  rw [← hs]
  exact parse_descriptor hreadable (Nat.le_of_succ_le hdims)

theorem eq_of_parse_class {name : String} {t : FieldType} (h : parse ("L" ++ name ++ ";") = .ok t) :
    t = ⟨.object name, 0⟩ := by
  have hlists := congrArg String.toList (descriptor_of_parse h)
  rw [toList_descriptor] at hlists
  obtain ⟨element, dims⟩ := t
  have hdims : dims = 0 := by
    cases dims with
    | zero => rfl
    | succ => simp [replicate_succ, String.toList_append] at hlists
  subst hdims
  cases element with
  | object name' =>
    have hname : name'.toList = name.toList := by
      simpa [BaseType.descriptor, String.toList_append] using hlists
    rw [String.toList_inj.1 hname]
  | _ => simp [BaseType.descriptor, String.toList_append] at hlists

/-- The type that a name stands for: a class, or an array if it reads as one. -/
def ofName? (name : String) : Option FieldType :=
  if ValueType.namesArray name then
    (parse (String.ofList name.toList.tail)).toOption.map array
  else some ⟨.object name, 0⟩

end FieldType

open FieldType (ofName? array_dims)

namespace ValueType

/-- The name of the arrays of a reference. -/
def arrayName (name : String) : String :=
  "[" ++ (reference name).descriptor

@[simp] theorem arrayOf_reference (name : String) :
    (reference name).arrayOf = .reference (arrayName name) := rfl

theorem namesArray_bracket (desc : String) : namesArray ("[" ++ desc) = true := by
  simp [namesArray, String.toList_append]

theorem exists_of_namesArray {name : String} (h : namesArray name = true) :
    ∃ desc, name = "[" ++ desc := by
  unfold namesArray at h
  cases hlist : name.toList with
  | nil => simp [hlist] at h
  | cons ch tail =>
    refine ⟨String.ofList tail, String.toList_inj.1 ?_⟩
    simp only [hlist, head?_cons, beq_iff_eq, Option.some.injEq] at h
    simp [hlist, h, String.toList_append]

theorem ofName?_bracket (desc : String) :
    ofName? ("[" ++ desc) = (FieldType.parse desc).toOption.map FieldType.array := by
  have htail : String.ofList ("[" ++ desc).toList.tail = desc := by simp [String.toList_append]
  rw [ofName?, if_pos (namesArray_bracket desc), htail]

theorem ofName?_of_component {name : String} {c : FieldType}
    (h : (reference name).component? = some c) :
    ofName? name = some c.array ∧ c.Readable ∧ c.dims ≤ 255 := by
  unfold component? at h
  split at h
  · next harray =>
    have harray : namesArray name = true := harray
    have hparse := toOption_eq_some.1 h
    refine ⟨?_, FieldType.readable_of_parse hparse⟩
    rw [ofName?, if_pos harray]
    exact congrArg (Option.map FieldType.array) h
  · cases h

theorem ofName?_arrayName (name : String) : ofName? (arrayName name) = none ∨
    ∃ u, ofName? name = some u ∧ ofName? (arrayName name) = some u.array := by
  rw [arrayName, ofName?_bracket]
  cases hparse : FieldType.parse (reference name).descriptor with
  | error => exact .inl rfl
  | ok u =>
    refine .inr ⟨u, ?_, rfl⟩
    by_cases harray : namesArray name = true
    · have hself : (reference name).descriptor = name := by
        simp [descriptor, isArray, harray, ValueType.name]
      obtain ⟨desc, rfl⟩ := exists_of_namesArray harray
      rw [hself] at hparse
      obtain ⟨s, rfl, hs⟩ := FieldType.parse_of_parse_bracket hparse
      rw [ofName?_bracket, hs]
      rfl
    · have hself : (reference name).descriptor = "L" ++ name ++ ";" := by
        simp [descriptor, isArray, harray, ValueType.name]
      rw [hself] at hparse
      rw [FieldType.eq_of_parse_class hparse, ofName?, if_neg harray]

theorem eq_bracket_of_component {name : String} {c : FieldType}
    (h : (reference name).component? = some c) : name = "[" ++ c.descriptor := by
  unfold component? at h
  split at h
  · next harray =>
    have hdesc := FieldType.descriptor_of_parse (toOption_eq_some.1 h)
    obtain ⟨desc, rfl⟩ := exists_of_namesArray harray
    rw [hdesc]
    simp [name, String.toList_append]
  · cases h

theorem ofName?_ofFieldType {name : String} {c : FieldType} (hc : c.Readable) (hdims : c.dims ≤ 255)
    (hname : ofFieldType c = .reference name) :
    ofName? name = some c ∧ arrayName name = "[" ++ c.descriptor ∨
      c = ⟨.object name, 0⟩ ∧ namesArray name = true := by
  by_cases harray : c.isArray = true
  · obtain ⟨s, rfl⟩ := FieldType.eq_array_of_isArray harray
    rw [ofFieldType_array] at hname
    cases hname
    refine .inl ⟨?_, ?_⟩
    · have hdims' : s.dims ≤ 255 := Nat.le_of_succ_le hdims
      rw [ofName?_bracket, @FieldType.parse_descriptor s hc hdims']
      rfl
    · simp [arrayName, descriptor, isArray, namesArray_bracket, name, FieldType.descriptor_array]
  · have hzero : c.dims = 0 := by simpa [FieldType.isArray] using harray
    obtain ⟨element, dims⟩ := c
    cases hzero
    cases element with
    | object other =>
      obtain rfl : other = name := reference.inj hname
      by_cases hbracket : namesArray other = true
      · exact .inr ⟨rfl, hbracket⟩
      · refine .inl ⟨by simp [ofName?, hbracket], ?_⟩
        simp [arrayName, descriptor, isArray, hbracket, name, FieldType.descriptor,
          BaseType.descriptor]
    | _ => cases hname

end ValueType

open ValueType

namespace ClassTable

/-! ### Chains of superclasses -/

variable {above : List String} {a b y m : String} {d : ValueType} {i : Nat}

theorem Walks.length_le {t : ClassTable} {super : Option String} {seen : List String}
    (h : t.Walks super seen above) : above.length ≤ t.unvisited seen := by
  induction h with
  | top => exact Nat.zero_le _
  | up hfresh hfind _ ih =>
    have hlt := unvisited_lt hfind (by simpa using hfresh)
    rw [length_cons]
    omega

variable (t : ClassTable)

/-- The number of classes from a class upwards, if they can be listed. -/
def chainLength (name : String) : Nat :=
  match t.superclasses name with
  | .ok above => above.length + 1
  | .error _ => 0

theorem chainLength_lt (name : String) : t.chainLength name < t.size + 2 := by
  unfold chainLength
  split
  · next above habove =>
    obtain ⟨cls, -, habove⟩ := superclasses_eq_ok.1 habove
    have hle := habove.length_le
    have hsize : t.unvisited [name] ≤ t.size := countP_le_length
    omega
  · exact Nat.succ_pos _

theorem chainLength_lt_of_mem (ha : t.superclasses a = .ok above) (hb : b ∈ above) :
    t.chainLength b < t.chainLength a := by
  have hlength : t.chainLength a = above.length + 1 := by rw [chainLength, ha]
  rw [hlength]
  obtain ⟨cls, -, habove⟩ := superclasses_eq_ok.1 ha
  -- What comes after `b` in the chain of `a` is the chain of `b`.
  obtain ⟨cls', seen, before, rest, hfind, hrest, rfl⟩ := habove.of_mem hb
  unfold chainLength
  split
  · next above' hb' =>
    obtain ⟨cls'', hfind', habove'⟩ := superclasses_eq_ok.1 hb'
    cases hfind.symm.trans hfind'
    rw [habove'.unique hrest, length_append, length_cons]
    omega
  · exact Nat.succ_pos _

/-! ### Heights of types -/

/-- What the element of a type has above it. -/
def elementHeight : BaseType → Nat
  | .object name => t.chainLength name
  | _ => 0

theorem elementHeight_lt (element : BaseType) : t.elementHeight element < t.size + 2 := by
  cases element with
  | object name => exact t.chainLength_lt name
  | _ => exact Nat.succ_pos _

/-- What is left of the way of a type: a type of the root class loses dimensions, and every other
type gains dimensions or goes up its chain. -/
def typeHeight (type : FieldType) : Nat :=
  if type.element = .object objectClass then type.dims
  else 258 + (257 - type.dims) * (t.size + 2) + t.elementHeight type.element

variable {t} {u s : FieldType}

theorem typeHeight_root (h : u.element = .object objectClass) : t.typeHeight u = u.dims := by
  rw [typeHeight, if_pos h]

theorem typeHeight_other (h : u.element ≠ .object objectClass) : t.typeHeight u =
    258 + (257 - u.dims) * (t.size + 2) + t.elementHeight u.element := by
  rw [typeHeight, if_neg h]

/-- A type with more dimensions is lower, unless the elements were of the root class already. -/
theorem typeHeight_lt_of_dims_lt (hne : u.element ≠ .object objectClass)
    (hdims : u.dims < s.dims) (hother : s.dims ≤ 257) : t.typeHeight s < t.typeHeight u := by
  rw [typeHeight_other hne]
  by_cases hroot : s.element = .object objectClass
  · rw [typeHeight_root hroot]
    omega
  · rw [typeHeight_other hroot]
    have helement := t.elementHeight_lt s.element
    have hmul : (257 - s.dims + 1) * (t.size + 2) ≤ (257 - u.dims) * (t.size + 2) :=
      Nat.mul_le_mul_right _ (by omega)
    rw [Nat.succ_mul] at hmul
    omega

theorem typeHeight_array_lt (h : t.typeHeight s < t.typeHeight u) (hother : s.dims ≤ 256)
    (htype : u.dims ≤ 256) : t.typeHeight s.array < t.typeHeight u.array := by
  -- One dimension more takes the same from both.
  have hstep : ∀ r : FieldType, r.dims ≤ 256 →
      (257 - r.dims) * (t.size + 2) = (257 - (r.dims + 1)) * (t.size + 2) + (t.size + 2) := by
    intro r hr
    rw [← Nat.succ_mul]
    congr 1
    omega
  have hs := hstep s hother
  have hu := hstep u htype
  unfold typeHeight at h ⊢
  simp only [array_dims, FieldType.array_element]
  by_cases hroot : s.element = .object objectClass <;>
    by_cases hroot' : u.element = .object objectClass <;> simp only [hroot, hroot'] at h ⊢ <;> grind

/-! ### Heights of references -/

variable (t) in
/-- What is left of the way of a reference. An array that cannot be read has only the root class
above it. -/
def nameHeight (name : String) : Nat :=
  match FieldType.ofName? name with
  | some type => t.typeHeight type
  | none => 1

variable {name : String}

theorem nameHeight_some (h : ofName? name = some u) : t.nameHeight name = t.typeHeight u := by
  rw [nameHeight, h]

theorem nameHeight_none (h : ofName? name = none) : t.nameHeight name = 1 := by
  rw [nameHeight, h]

theorem dims_le_of_ofName? (h : ofName? name = some u) : u.dims ≤ 256 := by
  unfold ofName? at h
  split at h
  · obtain ⟨c, hc, rfl⟩ := Option.map_eq_some_iff.1 h
    have hdims := (FieldType.readable_of_parse (toOption_eq_some.1 hc)).2
    rw [array_dims]
    omega
  · cases h
    exact Nat.zero_le _

theorem dims_pos_of_ofName? (h : ofName? name = some u) (hname : namesArray name = true) :
    0 < u.dims := by
  rw [ofName?, if_pos hname] at h
  obtain ⟨c, -, rfl⟩ := Option.map_eq_some_iff.1 h
  exact Nat.succ_pos _

theorem nameHeight_root : t.nameHeight objectClass = 0 := by
  have htype : ofName? objectClass = some ⟨.object objectClass, 0⟩ := by decide
  rw [nameHeight_some htype, typeHeight_root rfl]

theorem nameHeight_pos (h : name ≠ objectClass) : 0 < t.nameHeight name := by
  cases htype : ofName? name with
  | none =>
    rw [nameHeight_none htype]
    exact Nat.one_pos
  | some u =>
    rw [nameHeight_some htype]
    by_cases hroot : u.element = .object objectClass
    · rw [typeHeight_root hroot]
      by_cases harray : namesArray name = true
      · exact dims_pos_of_ofName? htype harray
      · rw [ofName?, if_neg harray] at htype
        cases htype
        exact absurd (BaseType.object.inj hroot) h
    · rw [typeHeight_other hroot]
      omega

theorem nameHeight_lt (t : ClassTable) (name : String) :
    t.nameHeight name < 258 * (t.size + 3) := by
  cases htype : ofName? name with
  | none =>
    rw [nameHeight_none htype]
    omega
  | some u =>
    have hdims := dims_le_of_ofName? htype
    rw [nameHeight_some htype]
    by_cases hroot : u.element = .object objectClass
    · rw [typeHeight_root hroot]
      omega
    · rw [typeHeight_other hroot]
      have helement := t.elementHeight_lt u.element
      have hmul : (257 - u.dims) * (t.size + 2) ≤ 257 * (t.size + 2) :=
        Nat.mul_le_mul_right _ (Nat.sub_le _ _)
      omega

/-! ### Joins -/

theorem one_lt_typeHeight_array (h : 0 < t.typeHeight u) : 1 < t.typeHeight u.array := by
  by_cases hroot : u.element = .object objectClass
  · rw [typeHeight_root hroot] at h
    rw [typeHeight_root (u := u.array) hroot, array_dims]
    omega
  · rw [typeHeight_other (u := u.array) hroot]
    omega

/-- Where the elements of an array are declared as a class with the name of an array, merged arrays
have more dimensions. -/
theorem nameHeight_arrayName_of_bracket (hbracket : namesArray y = true)
    (hm : t.nameHeight m ≤ t.nameHeight y) :
    t.nameHeight (arrayName m) < t.typeHeight ⟨.object y, 1⟩ := by
  have hne : BaseType.object y ≠ .object objectClass := by
    rintro ⟨⟩
    cases hbracket
  rcases ofName?_arrayName m with hnone | ⟨s, hs, harray⟩
  · rw [nameHeight_none hnone, typeHeight_other hne]
    omega
  · have hdims := dims_le_of_ofName? hs
    rw [nameHeight_some harray]
    rcases Nat.eq_zero_or_pos s.dims with hzero | hpos
    · have hroot : s.element = .object objectClass := by
        by_contra hother
        -- The array `y` is lower than every class but the root.
        have hlt : t.nameHeight y < t.nameHeight m := by
          rw [nameHeight_some hs]
          cases hy : ofName? y with
          | none =>
            rw [nameHeight_none hy, typeHeight_other hother]
            omega
          | some u =>
            rw [nameHeight_some hy]
            have hpos := dims_pos_of_ofName? hy hbracket
            have hle := dims_le_of_ofName? hy
            exact typeHeight_lt_of_dims_lt hother (by omega) (by omega)
        omega
      rw [typeHeight_root (u := s.array) hroot, typeHeight_other hne, array_dims]
      omega
    · exact typeHeight_lt_of_dims_lt hne (Nat.succ_lt_succ hpos) (Nat.succ_le_succ hdims)

theorem nameHeight_arrayName {x : String} {c : FieldType} (hc : (reference x).component? = some c)
    (hy : ofFieldType c = .reference y) (hm : m = y ∨ t.nameHeight m < t.nameHeight y) :
    arrayName m = x ∨ t.nameHeight (arrayName m) < t.nameHeight x := by
  obtain ⟨hx, hreadable, hdims⟩ := ofName?_of_component hc
  rw [nameHeight_some hx]
  rcases ofName?_ofFieldType hreadable hdims hy with ⟨hy, harray⟩ | ⟨rfl, hbracket⟩
  · rcases hm with rfl | hm
    · exact .inl (harray.trans (eq_bracket_of_component hc).symm)
    · refine .inr ?_
      rw [nameHeight_some hy] at hm
      rcases ofName?_arrayName m with hnone | ⟨s, hs, harray⟩
      · rw [nameHeight_none hnone]
        exact one_lt_typeHeight_array (Nat.zero_lt_of_lt hm)
      · rw [nameHeight_some hs] at hm
        rw [nameHeight_some harray]
        exact typeHeight_array_lt hm (dims_le_of_ofName? hs) (by omega)
  · refine .inr (nameHeight_arrayName_of_bracket hbracket ?_)
    rcases hm with rfl | hm
    · exact Nat.le_refl _
    · exact Nat.le_of_lt hm

theorem commonSuperclass_ok {common : String} (h : t.commonSuperclass a b = .ok common) :
    common = a ∨ common = objectClass ∨
      ∃ above, t.superclasses a = .ok above ∧ common ∈ above := by
  unfold commonSuperclass at h
  split at h
  · cases h
    exact .inl rfl
  · simp only [bind_eq_ok, pure_eq_ok] at h
    obtain ⟨above, habove, other, -, h⟩ := h
    cases hfind : (b :: other).find? (a :: above).contains with
    | none =>
      rw [hfind] at h
      exact .inr (.inl h.symm)
    | some found =>
      rw [hfind] at h
      obtain rfl : found = common := h
      have hmem : found ∈ a :: above := by simpa using find?_some hfind
      rcases mem_cons.1 hmem with rfl | hmem
      · exact .inl rfl
      · exact .inr (.inr ⟨above, habove, hmem⟩)

theorem nameHeight_lt_of_mem (ha : namesArray a = false) (hroot : a ≠ objectClass)
    (habove : t.superclasses a = .ok above) (hb : b ∈ above) : t.nameHeight b < t.nameHeight a := by
  have htype : ofName? a = some ⟨.object a, 0⟩ := by simp [ofName?, ha]
  have hne : BaseType.object a ≠ .object objectClass := by simpa using hroot
  have hchain := t.chainLength_lt_of_mem habove hb
  rw [nameHeight_some htype]
  cases hb' : ofName? b with
  | none =>
    rw [nameHeight_none hb', typeHeight_other hne]
    omega
  | some u =>
    rw [nameHeight_some hb']
    by_cases harray : namesArray b = true
    · have hpos := dims_pos_of_ofName? hb' harray
      have hle := dims_le_of_ofName? hb'
      exact typeHeight_lt_of_dims_lt hne hpos (by omega)
    · rw [ofName?, if_neg harray] at hb'
      cases hb'
      by_cases hroot' : BaseType.object b = .object objectClass
      · rw [typeHeight_root hroot', typeHeight_other hne]
        dsimp only
        omega
      · rw [typeHeight_other hroot', typeHeight_other hne]
        simp only [elementHeight]
        omega

/-! ### Heights of values -/

variable (t) in
/-- What is left of the way of a value: null can become any reference, a marker the reference to its
class, and everything in a local variable unusable. -/
def height : ValueType → Nat
  | .unknown => 0
  | .null => 258 * (t.size + 3) + 1
  | .reference name => t.nameHeight name + 1
  | .uninitialized name _ | .uninitializedThis name => t.nameHeight name + 2
  | _ => 1

theorem height_le (t : ClassTable) (v : ValueType) : t.height v ≤ 258 * (t.size + 3) + 1 := by
  cases v with
  | reference name | uninitialized name | uninitializedThis name =>
    have hlt := t.nameHeight_lt name
    simp only [height]
    omega
  | _ =>
    simp only [height]
    omega

variable (t) in
/-- A value stays as it is or gets lower. -/
def Sinks (a d : ValueType) : Prop :=
  d = a ∨ t.height d < t.height a

theorem Sinks.refl (a : ValueType) : t.Sinks a a :=
  .inl rfl

theorem Sinks.trans {a b : ValueType} (hab : t.Sinks a b) (hbd : t.Sinks b d) : t.Sinks a d := by
  rcases hab with rfl | hab
  · exact hbd
  · rcases hbd with rfl | hbd
    · exact .inr hab
    · exact .inr (Nat.lt_trans hbd hab)

theorem sinks_root {a : ValueType} (ha : a.isReference = true) :
    t.Sinks a (.reference objectClass) := by
  cases a with
  | null =>
    refine .inr ?_
    simp only [height, nameHeight_root]
    omega
  | reference name =>
    by_cases hroot : name = objectClass
    · exact .inl (by rw [hroot])
    · have hpos := nameHeight_pos (t := t) hroot
      refine .inr ?_
      simp only [height, nameHeight_root]
      omega
  | _ => cases ha

/-- The root class of a table has nothing above it. -/
def Rooted (t : ClassTable) : Prop :=
  ∀ cls, t.find? objectClass = some cls → cls.super = none

instance (t : ClassTable) : Decidable t.Rooted :=
  decidable_of_iff (∀ cls ∈ t.find? objectClass, cls.super = none) Iff.rfl

theorem Rooted.superclasses (h : t.Rooted) {above : List String}
    (habove : t.superclasses objectClass = .ok above) : above = [] := by
  obtain ⟨cls, hfind, habove⟩ := superclasses_eq_ok.1 habove
  rw [h cls hfind] at habove
  cases habove
  rfl

theorem sinks_joinClasses (h : t.Rooted) (ha : namesArray a = false)
    (hd : t.hierarchy.joinClasses (.reference a) (.reference b) = .ok d) :
    t.Sinks (.reference a) d := by
  have hroot : t.Sinks (.reference a) (.reference objectClass) := sinks_root rfl
  rcases joinClasses_ok hd with rfl | ⟨common, hcommon, rfl⟩
  · exact hroot
  · have hcommon : t.commonSuperclass a b = .ok common := hcommon
    rcases commonSuperclass_ok hcommon with rfl | rfl | ⟨above, habove, hmem⟩
    · exact .refl _
    · exact hroot
    · -- Without a superclass of its own the root class cannot be left again.
      by_cases hobject : a = objectClass
      · subst hobject
        rw [h.superclasses habove] at hmem
        cases hmem
      · exact .inr (Nat.succ_lt_succ (nameHeight_lt_of_mem ha hobject habove hmem))

/-- A join that changes a reference lowers it. The induction follows the components of arrays. -/
theorem sinks_join (h : t.Rooted) {a b : ValueType} (ha : a.isReference = true)
    (hb : b.isReference = true) (hd : t.hierarchy.join a b = .ok d) : t.Sinks a d := by
  fun_induction t.hierarchy.join a b generalizing d with
  | case1 =>
    cases hd
    exact .refl _
  | case2 b hne =>
    cases hd
    -- Null is higher than every reference.
    obtain ⟨y, rfl⟩ := eq_reference_of_isReference hb fun hnull => hne hnull.symm
    have hlt := t.nameHeight_lt y
    refine .inr ?_
    simp only [height]
    omega
  | case3 =>
    cases hd
    exact .refl _
  | case4 a b _ _ _ _ ca cb hca hcb href _ ih =>
    -- Two arrays: what holds of the join of their components holds of the array of it.
    obtain ⟨hra, hrb⟩ := Bool.and_eq_true_iff.1 href
    obtain ⟨e, he, rfl⟩ := map_eq_ok.1 hd
    obtain ⟨x, rfl, -⟩ := component?_eq_some hca
    obtain ⟨y, hy⟩ := ofFieldType_of_isReference hra
    have hrefs := isReference_ofFieldType hra
    obtain ⟨hre, hne⟩ :=
      isReference_join hrefs (isReference_ofFieldType hrb) he
    obtain ⟨m, rfl⟩ := eq_reference_of_isReference hre (hne (by simp [hy]))
    have hm := ih hrefs (isReference_ofFieldType hrb) he
    rw [hy] at hm
    simp only [Sinks, height, reference.injEq, Nat.add_lt_add_iff_right] at hm
    rw [arrayOf_reference]
    simp only [Sinks, height, reference.injEq, Nat.add_lt_add_iff_right]
    exact nameHeight_arrayName hca hy hm
  | case5 | case6 =>
    cases hd
    exact sinks_root ha
  | case7 a b _ hna hnb harray =>
    obtain ⟨x, rfl⟩ := eq_reference_of_isReference ha hna
    obtain ⟨y, rfl⟩ := eq_reference_of_isReference hb hnb
    simp only [isArray, Bool.or_eq_true, not_or, Bool.not_eq_true] at harray
    exact sinks_joinClasses h harray.1 hd

/-! ### Merges -/

theorem sinks_mergeStackEntry (h : t.Rooted) {a b : ValueType}
    (hd : t.hierarchy.mergeStackEntry i a b = .ok d) : t.Sinks a d := by
  rcases Frame.mergeStackEntry_ok hd with ⟨-, rfl⟩ | ⟨ha, hb, hjoin⟩
  · exact .refl _
  · exact sinks_join h ha hb hjoin

theorem sinks_asInitialized (a : ValueType) : t.Sinks a (Frame.asInitialized a) := by
  unfold Frame.asInitialized
  split
  · next hmarker =>
    refine .inr ?_
    cases a with
    | uninitialized | uninitializedThis =>
      simp only [initialized, name, height]
      omega
    | _ => cases hmarker
  · exact .refl _

theorem sinks_unknown (a : ValueType) : t.Sinks a .unknown := by
  cases a with
  | unknown => exact .refl _
  | _ =>
    refine .inr ?_
    simp only [height]
    omega

theorem sinks_mergeLocal (h : t.Rooted) {a b : ValueType}
    (hd : t.hierarchy.mergeLocal i a b = .ok d) : t.Sinks a d := by
  rcases Frame.mergeLocal_ok hd with ⟨-, rfl⟩ | rfl | ⟨hsame, rfl⟩ | ⟨ha, hb, hjoin⟩
  · exact .refl _
  · exact sinks_unknown a
  · rw [← hsame]
    exact sinks_asInitialized a
  · exact (sinks_asInitialized a).trans (sinks_join h ha hb hjoin)

theorem sum_height_of_forall₂ {l l' : List ValueType}
    (h : Forall₂ t.Sinks l l') : l' = l ∨ (l'.map t.height).sum < (l.map t.height).sum := by
  induction h with
  | nil => exact .inl rfl
  | cons hd _ ih =>
    simp only [map_cons, sum_cons, List.cons.injEq]
    rcases hd with rfl | hd
    · rcases ih with rfl | ih
      · exact .inl ⟨rfl, rfl⟩
      · exact .inr (Nat.add_lt_add_left ih _)
    · rcases ih with rfl | ih
      · exact .inr (Nat.add_lt_add_right hd _)
      · exact .inr (Nat.add_lt_add hd ih)

variable (t) in
/-- What is left of the way of a frame. The receiver of a constructor can become uninitialized once
more. -/
def frameHeight (f : Frame) : Nat :=
  (f.stack.values.map t.height).sum + (f.locals.toList.map t.height).sum +
    if f.thisUninitialized then 0 else 1

theorem frameHeight_merge (h : t.Rooted) {f g m : Frame}
    (hm : Frame.merge t.hierarchy f g = (m, .ok true)) : t.frameHeight m < t.frameHeight f := by
  have hchanged : m.same f = false := by simpa using Frame.merge_changed hm
  obtain ⟨⟨hstack, -⟩, ⟨hlocals, -⟩, -, hthis⟩ := Frame.merge_eq_ok
    (P := t.Sinks) (Q := fun _ _ => True) (R := t.Sinks) (S := fun _ _ => True) hm
    (fun _ _ _ _ hd => ⟨sinks_mergeStackEntry h hd, trivial⟩)
    (fun _ _ _ _ hd => ⟨sinks_mergeLocal h hd, trivial⟩)
  -- The receiver stays as it was, or gets uninitialized.
  have hflag : m.thisUninitialized = f.thisUninitialized ∨
      m.thisUninitialized = true ∧ f.thisUninitialized = false := by
    cases hf : f.thisUninitialized with
    | true => simp [hthis, hf]
    | false => cases hg : g.thisUninitialized <;> simp [hthis, hf, hg]
  have hle : (if m.thisUninitialized then 0 else 1) ≤ (if f.thisUninitialized then 0 else 1) := by
    rcases hflag with heq | ⟨hm, hf⟩
    · exact Nat.le_of_eq (by rw [heq])
    · simp [hm, hf]
  unfold frameHeight
  -- Something has changed: the stack, the local variables, or else the receiver.
  rcases sum_height_of_forall₂ hstack with hstack | hstack
  · rw [hstack]
    rcases sum_height_of_forall₂ hlocals with hlocals | hlocals
    · rcases hflag with hflag | ⟨hm, hf⟩
      · have hsame := Frame.same_iff.2 ⟨hstack, Array.toList_inj.1 hlocals, hflag⟩
        rw [hchanged] at hsame
        cases hsame
      · rw [hlocals, hm, hf]
        simp
    · omega
  · rcases sum_height_of_forall₂ hlocals with hlocals | hlocals
    · rw [hlocals]
      omega
    · omega

theorem sum_height_le (l : List ValueType) :
    (l.map t.height).sum ≤ l.length * (258 * (t.size + 3) + 1) := by
  induction l with
  | nil => simp
  | cons v l ih =>
    have hv := t.height_le v
    rw [map_cons, sum_cons, length_cons, Nat.succ_mul l.length]
    omega

theorem frameHeight_le (f : Frame) : t.frameHeight f ≤
    (f.stack.values.length + f.locals.size) * (258 * (t.size + 3) + 1) + 1 := by
  have hstack := sum_height_le (t := t) f.stack.values
  have hlocals := sum_height_le (t := t) f.locals.toList
  have hflag : (if f.thisUninitialized then 0 else 1) ≤ 1 := by split <;> omega
  rw [Array.length_toList] at hlocals
  rw [frameHeight, Nat.add_mul]
  omega

end ClassTable

end Bytecode
