import Bytecode.Proofs.Covering
import Bytecode.Proofs.Prepared

/-!
Values of declared types, and their order.

A reference is known by a name, which is the name of a class or the descriptor of an array. As long
as no class has a name that reads as a descriptor, the types behind the names can be told apart, and
the order of values is an order of types.

* `FieldType.parse_descriptor`: a descriptor that was written can be read;
* `Hierarchy.assignable_of_under`: what may be assigned to a type, may be replaced by what is below.
-/
namespace Bytecode

open List

/-- A name that no descriptor has. -/
def IsClassName (name : String) : Prop :=
  name ≠ "" ∧ ';' ∉ name.toList ∧ '[' ∉ name.toList

instance (name : String) : Decidable (IsClassName name) :=
  inferInstanceAs (Decidable (_ ∧ _ ∧ _))

theorem IsClassName.namesArray {name : String} (h : IsClassName name) :
    ValueType.namesArray name = false := by
  cases hname : name.toList with
  | nil => simp [ValueType.namesArray, hname]
  | cons ch tail =>
    have hne : ch ≠ '[' := by
      rintro rfl
      exact h.2.2 (hname ▸ mem_cons_self)
    simp [ValueType.namesArray, hname, hne]

/-- A name that can be read back from a descriptor. -/
def IsReadable (name : String) : Prop :=
  name ≠ "" ∧ ';' ∉ name.toList

theorem IsClassName.isReadable {name : String} (h : IsClassName name) : IsReadable name :=
  ⟨h.1, h.2.1⟩

/-! ### Reading what was written -/

theorem BaseType.exists_descriptor (t : BaseType) :
    ∃ ch tail, t.descriptor.toList = ch :: tail ∧ ch ≠ '[' := by
  cases t <;> simp [descriptor, String.toList_append]

/-- The class of an object. -/
def BaseType.className? : BaseType → Option String
  | .object name => some name
  | _ => none

namespace FieldType

/-- The class of the elements, if they are objects, has the name of a class. -/
def Named (t : FieldType) : Prop :=
  ∀ name ∈ t.element.className?, IsClassName name

instance (t : FieldType) : Decidable t.Named :=
  inferInstanceAs (Decidable (∀ name ∈ t.element.className?, IsClassName name))

/-- The class of the elements, if they are objects, has a name that can be read back. -/
def Readable (t : FieldType) : Prop :=
  ∀ name ∈ t.element.className?, IsReadable name

variable {t : FieldType}

theorem Named.readable (h : t.Named) : t.Readable :=
  fun name hname => (h name hname).isReadable

/-- The type of the arrays of a type. -/
def array (t : FieldType) : FieldType :=
  { t with dims := t.dims + 1 }

@[simp] theorem array_element (t : FieldType) : t.array.element = t.element := rfl

@[simp] theorem array_dims (t : FieldType) : t.array.dims = t.dims + 1 := rfl

theorem named_array : t.array.Named ↔ t.Named := Iff.rfl

theorem isReference_array (t : FieldType) : t.array.isReference = true := by
  simp [isReference, isArray]

theorem eq_array_of_isArray (h : t.isArray = true) : ∃ s : FieldType, t = s.array := by
  obtain ⟨element, dims⟩ := t
  cases dims with
  | zero => cases h
  | succ n => exact ⟨⟨element, n⟩, rfl⟩

theorem descriptor_array (t : FieldType) : t.array.descriptor = "[" ++ t.descriptor := by
  refine String.toList_inj.1 ?_
  simp [descriptor, replicate_succ, String.toList_append]

theorem toList_descriptor (t : FieldType) :
    t.descriptor.toList = List.replicate t.dims '[' ++ t.element.descriptor.toList := by
  simp [descriptor, String.toList_append]

theorem brackets_descriptor (t : FieldType) (rest : List Char) :
    ((t.descriptor.toList ++ rest).takeWhile (· == '[')).length = t.dims ∧
      (t.descriptor.toList ++ rest).dropWhile (· == '[') =
        t.element.descriptor.toList ++ rest := by
  obtain ⟨ch, tail, hlist, hne⟩ := t.element.exists_descriptor
  rw [toList_descriptor, hlist, append_assoc, takeWhile_append_of_pos (by simp),
    dropWhile_append_of_pos (by simp)]
  simp [hne]

theorem descriptor_inj {s : FieldType} (h : s.descriptor = t.descriptor) : s = t := by
  obtain ⟨hdims, helement⟩ := s.brackets_descriptor []
  obtain ⟨hdims', helement'⟩ := t.brackets_descriptor []
  rw [h, hdims'] at hdims
  rw [h, helement'] at helement
  have hbase : s.element = t.element := by
    cases hs : s.element <;> cases ht : t.element <;>
      simp_all [BaseType.descriptor, String.toList_append, String.toList_inj]
  cases s
  cases t
  simp_all

theorem name_descriptor {name : String} (h : IsReadable name) (rest : List Char) :
    (name.toList ++ ';' :: rest).takeWhile (· != ';') = name.toList ∧
      (name.toList ++ ';' :: rest).dropWhile (· != ';') = ';' :: rest := by
  have hname : ∀ ch ∈ name.toList, (ch != ';') = true := by
    intro ch hch
    simp only [bne_iff_ne, ne_eq]
    rintro rfl
    exact h.2 hch
  rw [takeWhile_append_of_pos hname, dropWhile_append_of_pos hname]
  simp

theorem ofChar?_descriptor {t : BaseType} {ch : Char} {tail : List Char}
    (h : t.descriptor.toList = ch :: tail) :
    (∃ name, t = .object name ∧ ch = 'L' ∧ tail = name.toList ++ [';']) ∨
      (ch ≠ 'L' ∧ ch ≠ 'V' ∧ tail = [] ∧ BaseType.ofChar? ch = some t) := by
  cases t with
  | object name =>
    simp [BaseType.descriptor, String.toList_append] at h
    exact .inl ⟨name, rfl, h.1.symm, h.2.symm⟩
  | _ =>
    cases h
    exact .inr ⟨by decide, by decide, rfl, rfl⟩

/-- A descriptor that was written can be read, whatever follows it. -/
theorem read_descriptor (ht : t.Readable) (hdims : t.dims ≤ 255) (rest : List Char) :
    ∃ lt, read (t.descriptor.toList ++ rest) = .ok (some t, ⟨rest, lt⟩) := by
  obtain ⟨htake, hdrop⟩ := t.brackets_descriptor rest
  obtain ⟨first, tail, hlist, -⟩ := t.element.exists_descriptor
  have hpos : rest.length < (t.descriptor.toList ++ rest).length := by
    rw [toList_descriptor, hlist]
    simp
    omega
  refine ⟨hpos, ?_⟩
  rw [hlist, cons_append] at hdrop
  unfold read
  simp only [htake]
  rw [if_neg (by omega)]
  split
  · next hs =>
    rw [hs] at hdrop
    cases hdrop
  · next hs =>
    rw [hs] at hdrop
    cases hdrop
    rcases ofChar?_descriptor hlist with ⟨name, helement, -, rfl⟩ | ⟨hne, -⟩
    · have hname := ht name (by rw [helement]; rfl)
      obtain ⟨htail, hrest⟩ := name_descriptor hname rest
      have hempty : name.toList ≠ [] := by simpa using hname.1
      have htype : t = ⟨.object (String.ofList name.toList), t.dims⟩ := by
        rw [String.ofList_toList, ← helement]
      have hafter : (name.toList ++ [';']) ++ rest = name.toList ++ ';' :: rest := by simp
      rw [← hafter] at htail hrest
      split
      · next hs' =>
        rw [hrest] at hs'
        cases hs'
      · next hs' =>
        rw [hrest] at hs'
        cases hs'
        simp only [htail, List.isEmpty_iff, hempty, if_false]
        rw [← htype]
    · exact absurd rfl hne
  · next hs =>
    rw [hs] at hdrop
    cases hdrop
    rcases ofChar?_descriptor hlist with ⟨name, -, hne, -⟩ | ⟨-, hne, -⟩
    · cases hne
    · exact absurd rfl hne
  · next hL hV hs =>
    rw [hs] at hdrop
    cases hdrop
    rcases ofChar?_descriptor hlist with ⟨name, -, rfl, -⟩ | ⟨-, -, rfl, helement⟩
    · exact absurd rfl hL
    · simp only [helement, nil_append]

theorem parse_descriptor {t : FieldType} (ht : t.Readable) (hdims : t.dims ≤ 255) :
    parse t.descriptor = .ok t := by
  have hread := read_descriptor ht hdims []
  rw [append_nil] at hread
  obtain ⟨lt, hread⟩ := hread
  simp [parse, hread, bind, Except.bind]

theorem readable_of_read {s : List Char} {rest : { rest : List Char // rest.length < s.length }}
    (h : read s = .ok (some t, rest)) : t.Readable ∧ t.dims ≤ 255 := by
  unfold read at h
  simp only at h
  split at h
  · cases h
  · next hdims =>
    rw [Nat.not_lt] at hdims
    split at h
    · cases h
    · next tail _ =>
      split at h
      · cases h
      · split at h
        · cases h
        · next hname =>
          cases h
          refine ⟨fun name hmem => ?_, hdims⟩
          cases hmem
          refine ⟨by simpa using hname, fun hsemicolon => ?_⟩
          -- The name was taken up to the semicolon.
          have hall := all_takeWhile (p := (· != ';')) (l := tail)
          rw [String.toList_ofList] at hsemicolon
          simpa using all_eq_true.1 hall _ hsemicolon
    · split at h <;> cases h
    · next ch _ _ _ _ =>
      split at h
      · next element helement =>
        cases h
        refine ⟨fun name hmem => ?_, hdims⟩
        cases element with
        | object =>
          unfold BaseType.ofChar? at helement
          split at helement <;> cases helement
        | _ => cases hmem
      · cases h

theorem readable_of_parse {desc : String} (h : parse desc = .ok t) : t.Readable ∧ t.dims ≤ 255 := by
  obtain ⟨⟨type, rest⟩, hread, h⟩ := bind_eq_ok.1 h
  cases type with
  | none =>
    dsimp only at h
    split at h <;> cases h
  | some type =>
    dsimp only at h
    split at h
    · cases h
    · cases h
      exact readable_of_read hread

theorem dims_le_of_parseClass {name : String} (h : parseClass name = .ok t) : t.dims ≤ 255 := by
  unfold parseClass at h
  split at h
  · exact (readable_of_parse h).2
  · split at h
    · cases h
    · cases h
      exact Nat.zero_le _

/-- The type of an object that a method can meet. A descriptor has up to 255 dimensions, and an
array of what it describes has one more. -/
structure IsObject (t : FieldType) : Prop where
  isReference : t.isReference = true
  named : t.Named
  dims : t.dims ≤ 256

theorem IsObject.of_class {name : String} (h : IsClassName name) : IsObject ⟨.object name, 0⟩ where
  isReference := rfl
  named := by
    rintro _ ⟨⟩
    exact h
  dims := by simp

theorem IsObject.of_array (h : t.array.IsObject) (ht : t.isReference = true) :
    t.IsObject where
  isReference := ht
  named := named_array.1 h.named
  dims := Nat.le_of_succ_le h.dims

theorem IsObject.cases (h : t.IsObject) :
    (∃ name, IsClassName name ∧ t = ⟨.object name, 0⟩) ∨
      ∃ s : FieldType, t = s.array ∧ s.Named ∧ s.dims ≤ 255 := by
  by_cases harray : t.isArray = true
  · obtain ⟨s, rfl⟩ := eq_array_of_isArray harray
    exact .inr ⟨s, rfl, named_array.1 h.named, Nat.le_of_succ_le_succ h.dims⟩
  · obtain ⟨element, dims⟩ := t
    have hdims : dims = 0 := by simpa [isArray] using harray
    subst hdims
    have hreference := h.isReference
    cases element with
    | object name => exact .inl ⟨name, h.named name rfl, rfl⟩
    | _ => cases hreference

end FieldType

namespace MethodType

theorem dims_le_of_readArguments {whole : String} {s rest : List Char} {types : List FieldType}
    (h : readArguments whole s = .ok (types, rest)) : ∀ t ∈ types, t.dims ≤ 255 := by
  fun_induction readArguments whole s generalizing types rest with
  | case1 => cases h
  | case2 =>
    cases h
    simp
  | case3 => cases h
  | case4 => cases h
  | case5 s _ _ type rest' _ hread ih =>
    obtain ⟨⟨types', rest''⟩, htypes, h⟩ := bind_eq_ok.1 h
    cases h
    intro t ht
    rcases mem_cons.1 ht with rfl | ht
    · exact (FieldType.readable_of_read hread).2
    · exact ih htypes t ht

theorem dims_le_of_parse {desc : String} {m : MethodType} (h : parse desc = .ok m) :
    (∀ t ∈ m.args, t.dims ≤ 255) ∧ ∀ t ∈ m.result, t.dims ≤ 255 := by
  unfold parse at h
  split at h
  · obtain ⟨⟨args, rest⟩, hargs, h⟩ := bind_eq_ok.1 h
    dsimp only at h
    split at h
    · cases h
    · next result rest' _ hread =>
      simp only [ite_error_eq_ok, Except.ok.injEq] at h
      obtain ⟨-, -, rfl⟩ := h
      refine ⟨dims_le_of_readArguments hargs, fun t ht => ?_⟩
      cases ht
      exact (FieldType.readable_of_read hread).2
  · cases h

end MethodType

namespace ValueType

theorem ofFieldType_array (t : FieldType) :
    ofFieldType t.array = .reference ("[" ++ t.descriptor) := by
  rw [← FieldType.descriptor_array]
  simp [ofFieldType, FieldType.isArray]

@[simp] theorem ofFieldType_class (name : String) :
    ofFieldType ⟨.object name, 0⟩ = .reference name := rfl

theorem isArray_ofFieldType_array (t : FieldType) : (ofFieldType t.array).isArray = true := by
  simp [ofFieldType_array, isArray, namesArray, String.toList_append]

theorem component?_of_readable {s : FieldType} (hs : s.Readable) (hdims : s.dims ≤ 255) :
    (ofFieldType s.array).component? = some s := by
  have hname : String.ofList ("[" ++ s.descriptor).toList.tail = s.descriptor := by
    simp [String.toList_append]
  rw [component?, if_pos (isArray_ofFieldType_array s), ofFieldType_array, name, hname,
    FieldType.parse_descriptor hs hdims]
  rfl

theorem component?_array {t : FieldType} (ht : t.Named) (hdims : t.dims ≤ 255) :
    (ofFieldType t.array).component? = some t :=
  component?_of_readable ht.readable hdims

theorem eq_of_component?_array {s c : FieldType} (h : (ofFieldType s.array).component? = some c) :
    c = s := by
  rw [component?, if_pos (isArray_ofFieldType_array s)] at h
  have hname : String.ofList (ofFieldType s.array).name.toList.tail = s.descriptor := by
    simp [ofFieldType_array, name, String.toList_append]
  rw [hname] at h
  cases hparse : FieldType.parse s.descriptor with
  | error e => simp [hparse, Except.toOption] at h
  | ok c' =>
    simp only [hparse, Except.toOption, Option.some.injEq] at h
    subst h
    exact FieldType.descriptor_inj (FieldType.descriptor_of_parse hparse)

theorem arrayOf_ofFieldType {t : FieldType} (ht : t.IsObject) :
    (ofFieldType t).arrayOf = ofFieldType t.array := by
  rw [ofFieldType_array]
  rcases ht.cases with ⟨name, hname, rfl⟩ | ⟨s, rfl, -⟩
  · simp only [ofFieldType_class, arrayOf, descriptor, isArray, hname.namesArray, Bool.false_eq_true,
      if_false, ValueType.name]
    refine congrArg reference (String.toList_inj.1 ?_)
    simp [FieldType.descriptor, BaseType.descriptor, String.toList_append]
  · have harray := isArray_ofFieldType_array s
    rw [ofFieldType_array] at harray ⊢
    simp only [arrayOf, descriptor, harray, if_true, name, FieldType.descriptor_array]

end ValueType

/-! ### The order of types -/

namespace Hierarchy

open ValueType

/-- Classes are ordered with the root on top. -/
structure Ordered (h : Hierarchy) : Prop where
  trans : ∀ {a b d}, h.isSubclassOf a b = .ok true → h.isSubclassOf b d = .ok true →
    h.isSubclassOf a d = .ok true
  top : ∀ {b}, h.isSubclassOf objectClass b = .ok true → b = objectClass

/-- The answers of a hierarchy fit each other: classes are ordered, classes above others are there
and have names of classes, and the root and interfaces give objects no fields. -/
structure Sound (h : Hierarchy) : Prop extends Ordered h where
  above : ∀ {a b}, h.isSubclassOf a b = .ok true → a ≠ b →
    IsClassName b ∧ ∃ cls, h.lookup b = .ok cls
  fields : ∀ {owner name desc field decl},
    owner = objectClass ∨ h.knownInterface owner = .ok true →
    h.resolveField owner name desc = .ok (field, decl) → field.access.has .staticBit = true

/-- The order of the types of objects. -/
inductive Under (h : Hierarchy) : FieldType → FieldType → Prop
  | refl (t : FieldType) : Under h t t
  | root {t : FieldType} (object : t.isReference = true) : Under h t ⟨.object objectClass, 0⟩
  | subclass {a b : String} (sub : h.isSubclassOf a b = .ok true) :
      Under h ⟨.object a, 0⟩ ⟨.object b, 0⟩
  | array {a b : BaseType} {m n : Nat} (left : FieldType.isReference ⟨a, m⟩ = true)
      (right : FieldType.isReference ⟨b, n⟩ = true) (under : Under h ⟨a, m⟩ ⟨b, n⟩) :
      Under h ⟨a, m + 1⟩ ⟨b, n + 1⟩

variable {h : Hierarchy} {s t u : FieldType}

theorem isClassName_objectClass : IsClassName objectClass := by decide

theorem Under.dims_le (hu : Under h s t) : t.dims ≤ s.dims := by
  induction hu with
  | refl => exact Nat.le_refl _
  | root => exact Nat.zero_le _
  | subclass => exact Nat.le_refl _
  | array _ _ _ ih => exact Nat.succ_le_succ ih

theorem Under.trans (hs : h.Ordered) (hst : Under h s t) (htu : Under h t u) : Under h s u := by
  induction hst generalizing u with
  | refl => exact htu
  | root object =>
    cases htu with
    | refl => exact .root object
    | root => exact .root object
    | subclass sub =>
      rw [hs.top sub]
      exact .root object
  | subclass sub =>
    cases htu with
    | refl => exact .subclass sub
    | root => exact .root rfl
    | subclass sub' => exact .subclass (hs.trans sub sub')
  | array left right under ih =>
    cases htu with
    | refl => exact .array left right under
    | root => exact .root (by simp [FieldType.isReference, FieldType.isArray])
    | array _ right' under' => exact .array left right' (ih under')

theorem Below.under (hs : h.Sound) {a b : ValueType} (hab : Below h a b) (hs' : s.IsObject)
    (ha : a = ofFieldType s) : ∃ t : FieldType, t.IsObject ∧ b = ofFieldType t ∧ Under h s t := by
  induction hab generalizing s with
  | refl => exact ⟨s, hs', ha, .refl s⟩
  | null =>
    obtain ⟨name, hname⟩ := ofFieldType_of_isReference hs'.isReference
    rw [hname] at ha
    cases ha
  | root =>
    exact ⟨_, .of_class isClassName_objectClass, rfl, .root hs'.isReference⟩
  | @subclass a b isClass sub =>
    rcases hs'.cases with ⟨name, hname, rfl⟩ | ⟨s, rfl, -⟩
    · cases ha
      have hb : IsClassName b := by
        by_cases hne : a = b
        · exact hne ▸ hname
        · exact (hs.above sub hne).1
      exact ⟨_, .of_class hb, rfl, .subclass sub⟩
    · have harray := isArray_ofFieldType_array s
      rw [← ha, isArray, isClass] at harray
      cases harray
  | @array a b component isArray isReference _ ih =>
    subst ha
    rcases hs'.cases with ⟨name, hname, rfl⟩ | ⟨s, rfl, hnamed, hdims⟩
    · obtain ⟨_, hname', harray⟩ := component?_eq_some isArray
      cases hname'
      rw [hname.namesArray] at harray
      cases harray
    · cases isArray.symm.trans (component?_array hnamed hdims)
      obtain ⟨t, ht, rfl, hunder⟩ := ih (hs'.of_array isReference) rfl
      have hdims' := hunder.dims_le
      refine ⟨t.array, ⟨t.isReference_array, ht.named, ?_⟩, arrayOf_ofFieldType ht,
        .array isReference ht.isReference hunder⟩
      simp only [FieldType.array_dims]
      omega
  | trans _ _ ih₁ ih₂ =>
    obtain ⟨t, ht, hb, hst⟩ := ih₁ hs' ha
    obtain ⟨u, hu, hd, htu⟩ := ih₂ ht hb
    exact ⟨u, hu, hd, hst.trans hs.toOrdered htu⟩

theorem below_of_under (hst : Under h s t) (hs : s.IsObject) (ht : t.IsObject) :
    Below h (ofFieldType s) (ofFieldType t) := by
  induction hst with
  | refl => exact .refl _
  | root =>
    obtain ⟨name, hname⟩ := ofFieldType_of_isReference hs.isReference
    rw [hname]
    exact .root name
  | subclass sub => exact .subclass (hs.named _ rfl).namesArray sub
  | @array a b m n left right _ ih =>
    have ha : FieldType.IsObject ⟨a, m⟩ := .of_array (t := ⟨a, m⟩) hs left
    have hb : FieldType.IsObject ⟨b, n⟩ := .of_array (t := ⟨b, n⟩) ht right
    show Below h (ofFieldType (FieldType.array ⟨a, m⟩)) (ofFieldType (FieldType.array ⟨b, n⟩))
    rw [← arrayOf_ofFieldType hb]
    exact .array (component?_array ha.named (Nat.le_of_succ_le_succ hs.dims)) left (ih ha hb)

/-! ### Assignments -/

theorem eq_reference_of_assignable {v : String} {w : ValueType}
    (hw : h.assignable (.reference v) w = .ok true) : ∃ name, w = .reference name := by
  cases w with
  | reference name => exact ⟨name, rfl⟩
  | _ =>
    unfold assignable at hw
    simp at hw

theorem assignable_self (v : ValueType) : h.assignable v v = .ok true := by
  unfold assignable
  simp

theorem assignable_class {v w : String} (hw : namesArray w = false) :
    h.assignable (.reference v) (.reference w) = .ok true ↔
      v = w ∨ w = objectClass ∨ h.knownInterface w = .ok true ∨
        (h.knownInterface w = .ok false ∧ namesArray v = false ∧
          h.knownSubclass v w = .ok true) := by
  rw [assignable]
  by_cases heq : v = w
  · simp [heq]
  · simp only [reference.injEq, heq, if_false, isArray, hw, Bool.false_eq_true, false_or]
    by_cases hroot : w = objectClass
    · simp [hroot]
    · simp only [hroot, if_false, false_or]
      cases hknown : h.knownInterface w with
      | error => simp
      | ok isInterface =>
        cases isInterface with
        | true => simp [pure, Except.pure, bind, Except.bind]
        | false =>
          by_cases harray : namesArray v = true
          · simp [harray, pure, Except.pure, bind, Except.bind]
          · simp [harray, bind, Except.bind]

theorem assignable_array {w : String} (hw : namesArray w = true) (ht : t.Named)
    (hdims : t.dims ≤ 255) : h.assignable (ofFieldType t.array) (.reference w) = .ok true ↔
      ∃ target, (reference w).component? = some target ∧
        if t.isReference && target.isReference then
          h.assignable (ofFieldType t) (ofFieldType target) = .ok true
        else t = target := by
  have hcomponent := component?_array ht hdims
  have harray := isArray_ofFieldType_array t
  rw [ofFieldType_array] at hcomponent harray ⊢
  rw [assignable]
  split
  · next heq =>
    cases heq
    simp only [hcomponent, Option.some.injEq, exists_eq_left', true_iff]
    split
    · exact assignable_self _
    · trivial
  · simp only [if_pos (show (reference w).isArray = true from hw)]
    split
    · next cv cw hcv hcw =>
      cases hcomponent.symm.trans hcv
      simp only [hcw, Option.some.injEq, exists_eq_left']
      split
      · rfl
      · simp
    · next hnone =>
      have hw' : (reference w).component? = none := by
        cases hcw : (reference w).component? with
        | none => rfl
        | some cw => exact absurd hcw (hnone t cw hcomponent)
      simp [hcomponent, hw']

theorem namesArray_of_assignable {v w : String} (hv : namesArray v = false)
    (hw : h.assignable (.reference v) (.reference w) = .ok true) : namesArray w = false := by
  by_contra harray
  rw [Bool.not_eq_false] at harray
  have hne : v ≠ w := by
    rintro rfl
    rw [hv] at harray
    cases harray
  rw [assignable] at hw
  simp [hne, isArray, harray, hv] at hw

theorem assignable_of_subclass (hs : h.Sound) {a b w : String} (ha : namesArray a = false)
    (hb : namesArray b = false) (sub : h.isSubclassOf a b = .ok true)
    (hw : h.assignable (.reference b) (.reference w) = .ok true) :
    h.assignable (.reference a) (.reference w) = .ok true := by
  have hclass := namesArray_of_assignable hb hw
  have hknown : ∀ {w}, h.isSubclassOf a w = .ok true → h.knownSubclass a w = .ok true :=
    fun hsub => mapError_eq_ok.2 hsub
  rw [assignable_class hclass] at hw ⊢
  rcases hw with rfl | hroot | hinterface | ⟨hinterface, -, hsub⟩
  · by_cases hne : a = b
    · exact .inl hne
    · obtain ⟨-, cls, hlookup⟩ := hs.above sub hne
      have hinterface : h.knownInterface b = .ok cls.isInterface := by
        simp [knownInterface, hlookup]
      cases hisInterface : cls.isInterface with
      | true => exact .inr (.inr (.inl (hisInterface ▸ hinterface)))
      | false => exact .inr (.inr (.inr ⟨hisInterface ▸ hinterface, ha, hknown sub⟩))
  · exact .inr (.inl hroot)
  · exact .inr (.inr (.inl hinterface))
  · exact .inr (.inr (.inr ⟨hinterface, ha, hknown (hs.trans sub (mapError_eq_ok.1 hsub))⟩))

/-- What may be assigned to a type, may be replaced by what is below it. -/
theorem assignable_of_under (hs : h.Sound) (hst : Under h s t) (hs' : s.IsObject)
    (ht : t.IsObject) {w : ValueType} (hw : h.assignable (ofFieldType t) w = .ok true) :
    h.assignable (ofFieldType s) w = .ok true := by
  induction hst generalizing w with
  | refl => exact hw
  | root =>
    obtain ⟨v, hv⟩ := ofFieldType_of_isReference hs'.isReference
    obtain ⟨w, rfl⟩ := eq_reference_of_assignable hw
    have hclass := namesArray_of_assignable isClassName_objectClass.namesArray hw
    rw [ofFieldType_class, assignable_class hclass] at hw
    rw [hv, assignable_class hclass]
    rcases hw with hroot | hroot | hinterface | ⟨-, -, hsub⟩
    · exact .inr (.inl hroot.symm)
    · exact .inr (.inl hroot)
    · exact .inr (.inr (.inl hinterface))
    · exact .inr (.inl (hs.top (mapError_eq_ok.1 hsub)))
  | subclass sub =>
    obtain ⟨w, rfl⟩ := eq_reference_of_assignable hw
    exact assignable_of_subclass hs (hs'.named _ rfl).namesArray (ht.named _ rfl).namesArray sub hw
  | @array a b m n left right under ih =>
    have ha : FieldType.IsObject ⟨a, m⟩ := .of_array (t := ⟨a, m⟩) hs' left
    have hb : FieldType.IsObject ⟨b, n⟩ := .of_array (t := ⟨b, n⟩) ht right
    change h.assignable (ofFieldType (FieldType.array ⟨b, n⟩)) w = .ok true at hw
    show h.assignable (ofFieldType (FieldType.array ⟨a, m⟩)) w = .ok true
    rw [ofFieldType_array] at hw
    obtain ⟨w, rfl⟩ := eq_reference_of_assignable hw
    rw [← ofFieldType_array] at hw
    by_cases harray : namesArray w = true
    · have hm : m ≤ 255 := Nat.le_of_succ_le_succ hs'.dims
      have hn : n ≤ 255 := Nat.le_of_succ_le_succ ht.dims
      obtain ⟨target, htarget, hassign⟩ := (assignable_array harray hb.named hn).1 hw
      refine (assignable_array harray ha.named hm).2 ⟨target, htarget, ?_⟩
      have htarget' : target.isReference = true := by
        by_contra hprimitive
        rw [if_neg (by simp [hprimitive])] at hassign
        exact hprimitive (hassign ▸ right)
      rw [if_pos (by simp [right, htarget'])] at hassign
      rw [if_pos (by simp [left, htarget'])]
      exact ih ha hb hassign
    · -- Arrays stand only where the root class or an interface is declared.
      rw [Bool.not_eq_true] at harray
      have hv := isArray_ofFieldType_array ⟨b, n⟩
      rw [ofFieldType_array] at hw hv ⊢
      rw [assignable_class harray] at hw ⊢
      rcases hw with rfl | hroot | hinterface | ⟨-, hclass, -⟩
      · cases harray.symm.trans hv
      · exact .inr (.inl hroot)
      · exact .inr (.inr (.inl hinterface))
      · cases hclass.symm.trans hv

end Hierarchy

end Bytecode
