import Bytecode.Proofs.DeclaredTypes
import Bytecode.Proofs.Markers

/-!
The classes that values, descriptors and constants name.

An instruction asks the hierarchy only about classes that its operands name, or that the values in
its frame do.

Main statements: `ValueType.Over.component` and `ValueType.Over.arrayOf`, an array names what its
components name.
-/
namespace Bytecode

open FieldType

variable {N : String → Prop}

/-! ### Values -/

namespace ValueType

/-- The class of an object, or of the elements of an array however many dimensions it has. A marker
names the class of its object. -/
def named? : ValueType → Option String
  | .reference name | .uninitialized name _ | .uninitializedThis name =>
    if namesArray name then (reference name).component?.bind (·.element.className?) else some name
  | _ => none

/-- What a value names has the property `N`. -/
def Over (N : String → Prop) (v : ValueType) : Prop :=
  ∀ name ∈ v.named?, N name

variable {a : ValueType} {c s : FieldType} {name element : String}

theorem over_class (hname : namesArray name = false) : (reference name).Over N ↔ N name := by
  simp [Over, named?, hname]

theorem Over.of_isClass (ha : a.Over N) (hclass : a.isClass = true) : N a.name := by
  cases a with
  | reference name =>
    have hname : namesArray name = false := by simpa [isClass] using hclass
    exact (over_class hname).1 ha
  | _ => cases hclass

theorem over_of_named?_eq_none (h : a.named? = none) : a.Over N := by
  intro name hname
  rw [h] at hname
  cases hname

theorem readable_of_component? (h : a.component? = some c) :
    c.Readable ∧ c.dims ≤ 255 ∧ a = .reference ("[" ++ c.descriptor) := by
  obtain ⟨name, rfl, hname⟩ := Hierarchy.component?_eq_some h
  rw [component?, if_pos (show (reference name).isArray = true from hname), toOption_eq_some] at h
  obtain ⟨hreadable, hdims⟩ := readable_of_parse h
  refine ⟨hreadable, hdims, congrArg reference (String.toList_inj.1 ?_)⟩
  rw [String.toList_append, descriptor_of_parse h]
  have hhead : '[' ∈ name.toList.head? := by simpa [namesArray] using hname
  simpa [ValueType.name] using List.eq_cons_of_mem_head? hhead

theorem className?_of_readable (hname : IsReadable name)
    (h : (reference name).component? = some c) : c.element.className? = none := by
  obtain ⟨-, -, heq⟩ := readable_of_component? h
  cases helement : c.element with
  | object element =>
    have hmem : ';' ∈ name.toList := by
      rw [reference.inj heq]
      simp [FieldType.descriptor, helement, BaseType.descriptor, String.toList_append]
    exact absurd hmem hname.2
  | _ => rfl

theorem named?_ofFieldType (hs : s.Readable) (h : (ofFieldType s).named? = some element) :
    s.element.className? = some element := by
  by_cases harray : s.isArray = true
  · obtain ⟨s, rfl⟩ := eq_array_of_isArray harray
    have hname := isArray_ofFieldType_array s
    rw [ofFieldType_array] at h hname
    rw [named?, if_pos (show namesArray _ = true from hname), Option.bind_eq_some_iff] at h
    obtain ⟨c, hc, helement⟩ := h
    rw [← ofFieldType_array] at hc
    rw [eq_of_component?_array hc] at helement
    exact helement
  · obtain ⟨base, dims⟩ := s
    rw [ofFieldType, if_neg harray] at h
    cases base with
    | object name =>
      simp only [named?] at h
      split at h
      · obtain ⟨c, hc, helement⟩ := Option.bind_eq_some_iff.1 h
        rw [className?_of_readable (hs name rfl) hc] at helement
        cases helement
      · exact h
    | _ => cases h

theorem named?_of_component? (h : a.component? = some c) : a.named? = c.element.className? := by
  obtain ⟨name, rfl, hname⟩ := Hierarchy.component?_eq_some h
  rw [named?, if_pos hname, h]
  rfl

theorem Over.component (ha : a.Over N) (h : a.component? = some c) : (ofFieldType c).Over N := by
  intro name hname
  refine ha name ?_
  rw [named?_of_component? h]
  exact named?_ofFieldType (readable_of_component? h).1 hname

theorem Over.arrayOf (ha : a.Over N) : a.arrayOf.Over N := by
  cases a with
  | reference name =>
    intro element helement
    have hname : namesArray ("[" ++ (reference name).descriptor) = true := by
      simp [namesArray, String.toList_append]
    rw [arrayOf, named?, if_pos hname, Option.mem_def, Option.bind_eq_some_iff]
      at helement
    obtain ⟨c, hc, helement⟩ := helement
    obtain ⟨hreadable, hdims, heq⟩ := readable_of_component? hc
    have hdescriptor : (reference name).descriptor = c.descriptor := by
      have := congrArg String.toList (reference.inj heq)
      simpa [String.toList_append, String.toList_inj] using this
    refine ha element ?_
    by_cases harray : namesArray name = true
    · -- The component is the array itself.
      rw [descriptor, if_pos (show (reference name).isArray = true from harray)] at hdescriptor
      obtain ⟨s, rfl⟩ : ∃ s : FieldType, c = s.array := by
        refine eq_array_of_isArray ?_
        by_contra hnot
        have hhead := c.element.head_descriptor
        rw [namesArray, show name = c.descriptor from hdescriptor, toList_descriptor,
          show c.dims = 0 by simpa [FieldType.isArray] using hnot] at harray
        exact hhead (by simpa using harray)
      have hvalue : reference name = ofFieldType s.array := by
        rw [ofFieldType_array, ← descriptor_array]
        exact congrArg reference hdescriptor
      have hcomponent := component?_of_readable (s := s) hreadable (Nat.le_of_succ_le hdims)
      rw [hvalue, named?_of_component? hcomponent]
      exact helement
    · -- The component is of the class.
      have hclass : c = ⟨.object name, 0⟩ := by
        refine descriptor_inj (hdescriptor.symm.trans ?_)
        rw [descriptor, if_neg (show ¬(reference name).isArray = true from harray)]
        refine String.toList_inj.1 ?_
        simp [FieldType.descriptor, BaseType.descriptor, String.toList_append, ValueType.name]
      rw [hclass] at helement
      rw [named?, if_neg harray]
      exact helement
  | int | long | float | double => exact over_of_named?_eq_none (by decide)
  | _ => exact over_of_named?_eq_none rfl

theorem named?_of_elementClass? (h : (reference name).elementClass? = some element) :
    (reference name).named? = some element := by
  by_cases harray : namesArray name = true
  · simp only [elementClass?, isClass, harray, Bool.not_true, Bool.false_eq_true, if_false] at h
    split at h
    · next element' dims hparse =>
      cases h
      obtain ⟨hreadable, hdims⟩ := readable_of_parse hparse
      have hdescriptor := descriptor_of_parse hparse
      obtain ⟨s, hs⟩ : ∃ s : FieldType, (⟨.object element, dims⟩ : FieldType) = s.array := by
        refine eq_array_of_isArray ?_
        by_contra hnot
        have hzero : dims = 0 := by simpa [FieldType.isArray] using hnot
        subst hzero
        rw [namesArray, show name = _ from hdescriptor.symm, toList_descriptor] at harray
        simp [BaseType.descriptor, String.toList_append] at harray
      rw [hs] at hreadable hdims hdescriptor
      have hvalue : reference name = ofFieldType s.array := by
        rw [ofFieldType_array, ← descriptor_array]
        exact congrArg reference hdescriptor.symm
      have hcomponent := component?_of_readable (s := s) hreadable (Nat.le_of_succ_le hdims)
      rw [hvalue, named?_of_component? hcomponent, ← array_element, ← hs]
      rfl
    · cases h
  · rw [Bool.not_eq_true] at harray
    simp only [elementClass?, isClass, harray, Bool.not_false, if_true] at h
    rw [named?, harray]
    exact h

theorem Over.initialized (ha : a.Over N) (hmarker : a.isUninitialized = true) :
    a.initialized.Over N := by
  cases a with
  | uninitialized | uninitializedThis => exact ha
  | _ => cases hmarker

theorem ofClassRef_eq_ok (h : ofClassRef name = .ok a) : a = .reference name ∧ name ≠ "" := by
  obtain ⟨s, hparse, rfl⟩ := map_eq_ok.1 h
  have href := isReference_of_parseClass hparse
  unfold parseClass at hparse
  split at hparse
  · next tail hname =>
    refine ⟨?_, ?_⟩
    · have hdescriptor := descriptor_of_parse hparse
      by_cases harray : s.isArray = true
      · rw [ofFieldType, if_pos harray, hdescriptor]
      · have hdims : s.dims = 0 := by simpa [FieldType.isArray] using harray
        have hhead := s.element.head_descriptor
        have hlist := congrArg String.toList hdescriptor
        rw [toList_descriptor, hdims, List.replicate_zero, List.nil_append, hname] at hlist
        rw [hlist] at hhead
        exact absurd rfl hhead
    · rintro rfl
      cases hname
  · split at hparse
    · cases hparse
    · next hvalid =>
      cases hparse
      refine ⟨rfl, ?_⟩
      rintro rfl
      exact hvalid rfl

end ValueType

open ValueType

/-! ### Frames -/

namespace Frame

/-- All values of a frame name classes with the property `N`. -/
def Over (N : String → Prop) (f : Frame) : Prop :=
  ∀ v, f.Has v → v.Over N

theorem Over.operand {f : Frame} {depth : Nat} {v : ValueType} (hf : f.Over N)
    (hv : f.stack.values[depth]? = some v) : v.Over N :=
  hf v (.inl (List.mem_of_getElem? hv))

end Frame

/-! ### Methods -/

/-- The types of the arguments and of the result name classes with the property `N`. -/
structure MethodType.Over (N : String → Prop) (m : MethodType) : Prop where
  args : ∀ arg ∈ m.args, (ofFieldType arg).Over N
  result : ∀ result ∈ m.result, (ofFieldType result).Over N

/-- The constants of a pool and its descriptors name classes with the property `N`. -/
structure ConstantPool.Over (N : String → Prop) (p : ConstantPool) : Prop where
  classes : ∀ {i name}, p.className i = .ok name → name ≠ "" → (reference name).Over N
  fields : ∀ {i name desc type}, p.nameAndType i = .ok (name, desc) →
    FieldType.parse desc = .ok type → (ofFieldType type).Over N
  methods : ∀ {i name desc type}, p.nameAndType i = .ok (name, desc) →
    MethodType.parse desc = .ok type → type.Over N

/-- The classes that instructions name without an operand. -/
def coreClasses : List String :=
  [objectClass, throwableClass, stringClass, classClass, methodTypeClass, methodHandleClass,
    nullPointerClass]

/-- The class of a method, its constants and its type name classes with the property `N`, and so do
instructions without an operand. -/
structure MethodContext.Over (N : String → Prop) (c : MethodContext) : Prop where
  owner : N c.owner.name
  receiver : (reference c.owner.name).Over N
  pool : c.pool.Over N
  type : c.type.Over N
  core : ∀ name ∈ coreClasses, N name

theorem ConstantPool.memberRef_eq_ok {p : ConstantPool} {i : Int} {ref : MemberRef}
    (h : p.memberRef i = .ok ref) : (∃ owner, p.className owner = .ok ref.owner) ∧
      ∃ nat, p.nameAndType nat = .ok (ref.name, ref.descriptor) := by
  simp only [memberRef, memberTexts, bind_eq_ok, pure_eq_ok] at h
  obtain ⟨texts, ⟨constant, -, h⟩, rfl⟩ := h
  split at h
  case h_4 => cases h
  all_goals
    simp only [bind_eq_ok, pure_eq_ok, Prod.exists] at h
    obtain ⟨owner, howner, name, desc, hnat, rfl⟩ := h
    exact ⟨⟨_, by rw [className, howner]; rfl⟩, _, by rw [nameAndType, hnat]; rfl⟩

theorem ConstantPool.invokeDynamic_eq_ok {p : ConstantPool} {i : Int} {site : String × String}
    (h : p.invokeDynamic i = .ok site) : ∃ nat, p.nameAndType nat = .ok site := by
  simp only [invokeDynamic, callSiteTexts, bind_eq_ok, pure_eq_ok] at h
  obtain ⟨texts, ⟨constant, -, htexts⟩, rfl⟩ := h
  split at htexts
  · exact ⟨_, by rw [nameAndType, htexts]; rfl⟩
  · cases htexts

namespace MethodContext

variable {c : MethodContext} {ins : Instruction}

theorem classType_eq_ok {name : String} {t : ValueType} (h : classType ins name = .ok t) :
    t = .reference name ∧ name ≠ "" :=
  ofClassRef_eq_ok (mapError_eq_ok.1 h)

theorem Over.classOperand (hc : c.Over N) {name : String} {t : ValueType}
    (hname : c.classOperand ins = .ok name) (htype : classType ins name = .ok t) : t.Over N := by
  obtain ⟨rfl, hne⟩ := classType_eq_ok htype
  exact hc.pool.classes (mapError_eq_ok.1 hname) hne

theorem Over.fieldOperand (hc : c.Over N) {ref : MemberRef} {type : FieldType}
    (h : c.fieldOperand ins = .ok (ref, type)) : (ofFieldType type).Over N ∧
      ∀ {t}, classType ins ref.owner = .ok t → t.Over N := by
  simp only [MethodContext.fieldOperand, bind_eq_ok, mapError_eq_ok, pure_eq_ok, Prod.mk.injEq] at h
  obtain ⟨_, href, _, htype, rfl, rfl⟩ := h
  obtain ⟨⟨owner, howner⟩, nat, hnat⟩ := ConstantPool.memberRef_eq_ok href
  refine ⟨hc.pool.fields hnat htype, fun {t} ht => ?_⟩
  obtain ⟨rfl, hne⟩ := classType_eq_ok ht
  exact hc.pool.classes howner hne

theorem Over.methodOperand (hc : c.Over N) {kind : InvokeKind} {ref : MemberRef} {type : MethodType}
    (h : c.methodOperand ins kind = .ok (ref, type)) : type.Over N ∧
      (kind ≠ .ofDynamic → ∀ {t}, classType ins ref.owner = .ok t → t.Over N) := by
  simp only [MethodContext.methodOperand, bind_eq_ok, mapError_eq_ok, pure_eq_ok,
    Prod.mk.injEq] at h
  obtain ⟨_, href, _, htype, rfl, rfl⟩ := h
  split at href
  · next hdynamic =>
    obtain ⟨⟨name, desc⟩, hsite, rfl⟩ := map_eq_ok.1 href
    obtain ⟨nat, hnat⟩ := ConstantPool.invokeDynamic_eq_ok hsite
    exact ⟨hc.pool.methods hnat htype, fun hne => absurd hdynamic hne⟩
  · obtain ⟨⟨owner, howner⟩, nat, hnat⟩ := ConstantPool.memberRef_eq_ok href
    refine ⟨hc.pool.methods hnat htype, fun _ {t} ht => ?_⟩
    obtain ⟨rfl, hne⟩ := classType_eq_ok ht
    exact hc.pool.classes howner hne

end MethodContext

end Bytecode
