import Bytecode.Proofs.DescriptorGrammar

/-!
References keep what their descriptors say.

The value of a class or array type is known by one name, and the first character of the name tells
which of the two it is. But a descriptor may hold a class name that starts with a bracket, and such
a class passes for the array that its name describes. Every other reference keeps its descriptor.

* `isArray_ofFieldType`, `descriptor_ofFieldType`, `arrayOf_ofFieldType_iff`: what a value keeps of
  its type, unless this is disguised;
* `reference_names_exact`: the whole of it, for the descriptors that can be read;
* `class_named_as_array`: a class that passes for an array of ints.
-/
namespace Bytecode

namespace FieldType

/-- A class whose name starts as the descriptor of an array does. -/
def isDisguised (t : FieldType) : Bool :=
  !t.isArray && t.element.className?.any ValueType.namesArray

theorem isReference_cases {t : FieldType} (h : t.isReference = true) :
    (∃ name, t = ⟨.object name, 0⟩) ∨ ∃ s : FieldType, t = s.array := by
  obtain ⟨element, dims⟩ := t
  cases dims with
  | succ n => exact .inr ⟨⟨element, n⟩, rfl⟩
  | zero =>
    cases element with
    | object name => exact .inl ⟨name, rfl⟩
    | _ => cases h

theorem descriptor_class (name : String) :
    (⟨.object name, 0⟩ : FieldType).descriptor = "L" ++ name ++ ";" := by
  simp [descriptor, BaseType.descriptor]

@[simp] theorem isArray_array (t : FieldType) : t.array.isArray = true := by
  simp [isArray]

@[simp] theorem isDisguised_array (t : FieldType) : t.array.isDisguised = false := by
  simp [isDisguised]

@[simp] theorem isDisguised_class (name : String) :
    (⟨.object name, 0⟩ : FieldType).isDisguised = ValueType.namesArray name := by
  simp [isDisguised, isArray, BaseType.className?]

end FieldType

namespace ValueType

open FieldType

variable {s t : FieldType}

theorem isArray_ofFieldType (h : t.isReference = true) :
    (ofFieldType t).isArray = (t.isArray || t.isDisguised) := by
  rcases isReference_cases h with ⟨name, rfl⟩ | ⟨s, rfl⟩
  · rw [isDisguised_class]
    rfl
  · rw [isArray_ofFieldType_array, isArray_array, Bool.true_or]

/-- A reference is written as its type is, unless it is disguised. -/
theorem descriptor_ofFieldType (h : t.isReference = true) :
    (ofFieldType t).descriptor = t.descriptor ↔ t.isDisguised = false := by
  rcases isReference_cases h with ⟨name, rfl⟩ | ⟨s, rfl⟩
  · rw [isDisguised_class, descriptor_class, ofFieldType_class]
    cases hname : namesArray name with
    | false => simp [descriptor, isArray, hname, ValueType.name]
    | true =>
      -- The name would be longer than itself.
      have hlonger : name ≠ "L" ++ name ++ ";" := by
        intro heq
        have hlength := congrArg String.length heq
        simp only [String.length_append] at hlength
        have hone : "L".length = 1 := by decide
        omega
      simpa [descriptor, isArray, hname, ValueType.name] using hlonger
  · have harray := isArray_ofFieldType_array s
    simp only [descriptor, harray, if_true, isDisguised_array, iff_true]
    rw [ofFieldType_array, descriptor_array]
    rfl

/-- The array of a component is the array it was taken from, unless the component is disguised. -/
theorem arrayOf_ofFieldType_iff (h : t.isReference = true) :
    (ofFieldType t).arrayOf = ofFieldType t.array ↔ t.isDisguised = false := by
  obtain ⟨name, hname⟩ : ∃ name, ofFieldType t = .reference name := by
    rcases isReference_cases h with ⟨name, rfl⟩ | ⟨s, rfl⟩
    · exact ⟨name, rfl⟩
    · exact ⟨_, ofFieldType_array s⟩
  rw [← descriptor_ofFieldType h, hname, ofFieldType_array, arrayOf, reference.injEq,
    ← String.toList_inj, String.toList_append, String.toList_append, List.append_right_inj,
    String.toList_inj]

theorem ofFieldType_class_eq_array {name : String} :
    ofFieldType ⟨.object name, 0⟩ = ofFieldType t.array ↔ name = t.array.descriptor := by
  rw [ofFieldType_class, ofFieldType_array, reference.injEq, descriptor_array]

/-- Two references have the same value if they are the same type, or one is a class that the
descriptor of the other, an array, is the name of. -/
theorem ofFieldType_eq_iff (hs : s.isReference = true) (ht : t.isReference = true) :
    ofFieldType s = ofFieldType t ↔ s = t ∨ (t.isArray = true ∧ s = ⟨.object t.descriptor, 0⟩) ∨
      (s.isArray = true ∧ t = ⟨.object s.descriptor, 0⟩) := by
  have hclass : ∀ name : String, (⟨.object name, 0⟩ : FieldType).isArray = false := fun _ => rfl
  have hne : ∀ (name : String) (u : FieldType), u.array ≠ ⟨.object name, 0⟩ := by
    intro name u heq
    cases congrArg dims heq
  rcases isReference_cases hs with ⟨name, rfl⟩ | ⟨s, rfl⟩
  · rcases isReference_cases ht with ⟨name', rfl⟩ | ⟨t, rfl⟩
    · simp [hclass]
    · rw [ofFieldType_class_eq_array]
      simp [hclass, (hne name t).symm]
  · rcases isReference_cases ht with ⟨name, rfl⟩ | ⟨t, rfl⟩
    · rw [eq_comm, ofFieldType_class_eq_array]
      simp [hclass, hne]
    · rw [ofFieldType_array, ofFieldType_array, reference.injEq, ← descriptor_array,
        ← descriptor_array]
      simp only [hne, and_false, or_false]
      exact ⟨descriptor_inj, congrArg FieldType.descriptor⟩

end ValueType

open FieldType ValueType

theorem descriptor_eq_class_iff {s t : FieldType} :
    s = ⟨.object t.descriptor, 0⟩ ↔ s.descriptor = "L" ++ t.descriptor ++ ";" := by
  rw [← descriptor_class]
  exact ⟨congrArg FieldType.descriptor, descriptor_inj⟩

/-- The value of a reference descriptor is an array exactly if the type is one, and is written as the
descriptor, unless it is a class whose name starts with a bracket. Two descriptors have different
values, unless one is that of an array and the other that of a class with the first for its name.
Every array has a component, and is the array of its component unless that is such a class. -/
theorem reference_names_exact (d : String) (t : FieldType) (hd : FieldType.parse d = .ok t)
    (ht : t.isReference = true) :
    ∃ v, ofDescriptor d = .ok v ∧
      (v.isArray = t.isArray ↔ t.isDisguised = false) ∧
      (v.descriptor = d ↔ t.isDisguised = false) ∧
      (∀ d' t', FieldType.parse d' = .ok t' → t'.isReference = true →
        (ofDescriptor d' = .ok v ↔ d' = d ∨ (t.isArray = true ∧ d' = "L" ++ d ++ ";") ∨
          (t'.isArray = true ∧ d = "L" ++ d' ++ ";"))) ∧
      (t.isArray = true → ∃ component, v.component? = some component ∧
        (component.isReference = true →
          ((ofFieldType component).arrayOf = v ↔ component.isDisguised = false))) := by
  obtain ⟨⟨hreadable, hdims⟩, rfl⟩ := FieldType.parse_eq_ok.1 hd
  have hvalue : ∀ {d t}, FieldType.parse d = .ok t → ofDescriptor d = .ok (ofFieldType t) := by
    intro d t h
    rw [ofDescriptor, h]
    rfl
  refine ⟨ofFieldType t, hvalue hd, ?_, descriptor_ofFieldType ht, ?_, ?_⟩
  · rw [isArray_ofFieldType ht]
    cases harray : t.isArray with
    | true => simp [isDisguised, harray]
    | false => simp
  · intro d' t' hd' ht'
    obtain ⟨-, rfl⟩ := FieldType.parse_eq_ok.1 hd'
    rw [hvalue hd', Except.ok.injEq, ofFieldType_eq_iff ht' ht, descriptor_eq_class_iff,
      descriptor_eq_class_iff]
    exact or_congr_left ⟨congrArg FieldType.descriptor, descriptor_inj⟩
  · intro harray
    obtain ⟨s, rfl⟩ := eq_array_of_isArray harray
    have hle : s.dims ≤ 255 := Nat.le_of_succ_le hdims
    exact ⟨s, component?_of_readable hreadable hle, arrayOf_ofFieldType_iff⟩

/-- Arrays of arrays of dogs. Their components are the arrays of dogs. -/
theorem reference_names_exact_dogs :
    FieldType.parse "[[Lapp/Dog;" = .ok ⟨.object "app/Dog", 2⟩ ∧
      FieldType.parse "Lapp/Dog;" = .ok ⟨.object "app/Dog", 0⟩ ∧
      ∃ v, ofDescriptor "[[Lapp/Dog;" = .ok v ∧ v.isArray = true ∧
        v.descriptor = "[[Lapp/Dog;" ∧ ofDescriptor "Lapp/Dog;" ≠ .ok v ∧
        v.component? = some ⟨.object "app/Dog", 1⟩ ∧
        (ofFieldType ⟨.object "app/Dog", 1⟩).arrayOf = v := by
  have harrays : FieldType.parse "[[Lapp/Dog;" = .ok ⟨.object "app/Dog", 2⟩ := by decide +kernel
  have hdogs : FieldType.parse "Lapp/Dog;" = .ok ⟨.object "app/Dog", 0⟩ := by decide +kernel
  obtain ⟨v, hv, hisArray, hdescriptor, hdistinct, hcomponent⟩ :=
    reference_names_exact "[[Lapp/Dog;" _ harrays rfl
  have hother := hdistinct "Lapp/Dog;" _ hdogs rfl
  obtain ⟨component, hsome, harrayOf⟩ := hcomponent rfl
  cases hv.symm.trans (show ofDescriptor "[[Lapp/Dog;" = .ok (.reference "[[Lapp/Dog;") by
    decide +kernel)
  cases hsome.symm.trans (show _ = some ⟨.object "app/Dog", 1⟩ by decide +kernel)
  exact ⟨harrays, hdogs, _, hv, hisArray.2 (by decide), hdescriptor.2 (by decide),
    fun hsame => absurd (hother.1 hsame) (by decide), hsome, (harrayOf rfl).2 (by decide)⟩

/-- A class with the name of an array of ints is a type that is no array. Its value is that of the
array, so it is one, and its descriptor is lost. -/
theorem class_named_as_array :
    FieldType.parse "L[I;" = .ok ⟨.object "[I", 0⟩ ∧
      (⟨.object "[I", 0⟩ : FieldType).isArray = false ∧
      ofDescriptor "L[I;" = .ok (.reference "[I") ∧ ofDescriptor "[I" = .ok (.reference "[I") ∧
      (ValueType.reference "[I").isArray = true ∧
      (ValueType.reference "[I").descriptor ≠ "L[I;" := by
  decide +kernel

end Bytecode
