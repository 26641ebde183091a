import Mathlib.Data.List.Induction
import Bytecode.ClassTable

/-!
Tables in which classes were registered, one after another.

* `find?_registered`: under each name a table holds the class that was registered last;
* `names_nodup`: no two of its classes have the same name.
-/
namespace Bytecode.ClassTable

open List

variable {t : ClassTable} {c : Class} {name : String}

/-- A class takes the place of one of the same name, and no other. -/
theorem find?_register (t : ClassTable) (c : Class) (name : String) :
    (t.register c).find? name = if c.name = name then some c else t.find? name := by
  unfold register
  by_cases hhas : t.has c.name = true
  · rw [if_pos hhas]
    -- The class in the place of another has its name, so the search stops where it did.
    have hsame : ((fun d : Class => d.name == name) ∘
        fun old : Class => if old.name == c.name then c else old) = fun d => d.name == name := by
      funext old
      by_cases hold : old.name = c.name <;> simp [hold]
    show (t.classes.map _).find? _ = _
    rw [find?_map, hsame]
    show (t.find? name).map _ = _
    split
    · next hname =>
      subst hname
      obtain ⟨old, hold⟩ := Option.isSome_iff_exists.1 hhas
      have hnamed : old.name = c.name := by simpa using find?_some hold
      simp [hold, hnamed]
    · next hname =>
      cases hfind : t.find? name with
      | none => rfl
      | some old =>
        have hnamed : old.name = name := by simpa using find?_some hfind
        simp [hnamed, Ne.symm hname]
  · rw [if_neg hhas]
    show (t.classes ++ [c]).find? _ = _
    rw [find?_append]
    split
    · next hname =>
      subst hname
      have hnone : t.classes.find? (fun d => d.name == c.name) = none := by
        simpa [has, find?] using hhas
      simp [hnone]
    · next hname => simp [hname, find?]

theorem names_register (t : ClassTable) (c : Class) :
    (t.register c).classes.map Class.name =
      if t.has c.name then t.classes.map Class.name else t.classes.map Class.name ++ [c.name] := by
  unfold register
  split
  · show (t.classes.map _).map _ = _
    rw [map_map]
    refine map_congr_left fun old _ => ?_
    by_cases hold : old.name = c.name <;> simp [hold]
  · simp

/-- The table in which some classes were registered, in their order. -/
def registered (classes : List Class) : ClassTable :=
  classes.foldl register empty

theorem registered_append (before after : List Class) :
    registered (before ++ after) = after.foldl register (registered before) :=
  foldl_append

theorem find?_registered (classes : List Class) (name : String) :
    (registered classes).find? name = classes.reverse.find? fun c => c.name == name := by
  induction classes using List.reverseRecOn with
  | nil => rfl
  | append_singleton classes c ih =>
    rw [registered_append, foldl_cons, foldl_nil, find?_register, ih,
      reverse_append, reverse_singleton, singleton_append]
    split
    · next hname => rw [find?_cons_of_pos (by simpa using hname)]
    · next hname => rw [find?_cons_of_neg (by simpa using hname)]

theorem names_nodup (classes : List Class) :
    ((registered classes).classes.map Class.name).Nodup := by
  induction classes using List.reverseRecOn with
  | nil => exact nodup_nil
  | append_singleton classes c ih =>
    rw [registered_append, foldl_cons, foldl_nil, names_register]
    split
    · exact ih
    · next hhas =>
      have hnew : ∀ d ∈ (registered classes).classes, d.name ≠ c.name := by
        simpa [has, find?] using hhas
      rw [nodup_append]
      refine ⟨ih, by simp, ?_⟩
      intro a ha b hb
      obtain ⟨d, hd, rfl⟩ := mem_map.1 ha
      rw [mem_singleton.1 hb]
      exact hnew d hd

end Bytecode.ClassTable
