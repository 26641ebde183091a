import Bytecode.Proofs.Covering

/-!
The order of the classes of a table.
-/
namespace Bytecode.ClassTable

variable {t : ClassTable}

theorem isSubclassOf_self (t : ClassTable) (a : String) : t.isSubclassOf a a = .ok true := by
  simp [isSubclassOf]

theorem isSubclassOf_of_mem {a d : String} {above : List String}
    (ha : t.superclasses a = .ok above) (hd : d ∈ above) : t.isSubclassOf a d = .ok true := by
  unfold isSubclassOf
  split
  · rfl
  · simp [ha, hd]

/-- The answers of a class table about superclasses agree with each other. -/
theorem coherent (t : ClassTable) : t.hierarchy.Coherent := by
  intro a b d hd
  simp only [hierarchy, commonSuperclass] at hd ⊢
  split at hd
  · next hab =>
    subst hab
    cases hd
    exact .inr ⟨isSubclassOf_self t _, isSubclassOf_self t _⟩
  · simp only [bind_eq_ok, pure_eq_ok] at hd
    obtain ⟨above, ha, other, hb, hd⟩ := hd
    cases hfind : (b :: other).find? (a :: above).contains with
    | none =>
      rw [hfind] at hd
      exact .inl hd.symm
    | some found =>
      rw [hfind] at hd
      obtain rfl : found = d := hd
      have hmem : found ∈ b :: other := List.mem_of_find?_eq_some hfind
      have hmem' : found ∈ a :: above := by simpa using List.find?_some hfind
      refine .inr ⟨?_, ?_⟩
      · rcases List.mem_cons.1 hmem' with rfl | h
        · exact isSubclassOf_self t _
        · exact isSubclassOf_of_mem ha h
      · rcases List.mem_cons.1 hmem with rfl | h
        · exact isSubclassOf_self t _
        · exact isSubclassOf_of_mem hb h

end Bytecode.ClassTable
