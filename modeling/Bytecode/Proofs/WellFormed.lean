import Bytecode.Proofs.ClassOrder
import Bytecode.Proofs.DeclaredTypes

/-!
Class tables whose answers fit each other.

Main statement: `WellFormed.sound`, the answers of a well-formed table are sound.
-/
namespace Bytecode.ClassTable

/-- The root has no superclass, interfaces are directly below it, and above the root and interfaces
there is nothing else; these give objects no fields. The names of classes do not read as
descriptors. -/
structure WellFormed (t : ClassTable) : Prop where
  names : ∀ cls ∈ t.classes, IsClassName cls.name
  root : ∀ cls ∈ t.classes, cls.name = objectClass → cls.super = none
  belowRoot : ∀ cls ∈ t.classes, cls.isInterface = true → cls.super = some objectClass
  interfaces : ∀ cls ∈ t.classes, cls.name = objectClass ∨ cls.isInterface = true →
    ∀ name ∈ cls.interfaces, ∀ super ∈ t.classes, super.name = name → super.isInterface = true
  fields : ∀ cls ∈ t.classes, cls.name = objectClass ∨ cls.isInterface = true →
    ∀ field ∈ cls.fields, field.access.has .staticBit = true

instance (t : ClassTable) : Decidable t.WellFormed :=
  decidable_of_iff ((∀ cls ∈ t.classes, IsClassName cls.name) ∧
      (∀ cls ∈ t.classes, cls.name = objectClass → cls.super = none) ∧
      (∀ cls ∈ t.classes, cls.isInterface = true → cls.super = some objectClass) ∧
      (∀ cls ∈ t.classes, cls.name = objectClass ∨ cls.isInterface = true →
        ∀ name ∈ cls.interfaces, ∀ super ∈ t.classes, super.name = name →
          super.isInterface = true) ∧
      ∀ cls ∈ t.classes, cls.name = objectClass ∨ cls.isInterface = true →
        ∀ field ∈ cls.fields, field.access.has .staticBit = true)
    ⟨fun ⟨h₁, h₂, h₃, h₄, h₅⟩ => ⟨h₁, h₂, h₃, h₄, h₅⟩,
      fun ⟨h₁, h₂, h₃, h₄, h₅⟩ => ⟨h₁, h₂, h₃, h₄, h₅⟩⟩

variable {t : ClassTable} {name a b d : String} {cls : Class}

theorem mem_of_find? (h : t.find? name = some cls) : cls ∈ t.classes ∧ cls.name = name :=
  ⟨List.mem_of_find?_eq_some h, by simpa using List.find?_some h⟩

theorem lookup_eq_ok : t.lookup name = .ok cls ↔ t.find? name = some cls := by
  unfold lookup
  split
  · next hfind => simp [hfind]
  · next hfind => simp [hfind]

/-! ### Superclasses -/

/-- A walk up the superclasses that comes to an end: where it begins, what it has seen by then, and
the classes that it meets. -/
inductive Walks (t : ClassTable) : Option String → List String → List String → Prop
  | top {seen : List String} : Walks t none seen []
  | up {super : String} {cls : Class} {seen rest : List String} (hfresh : super ∉ seen)
      (hfind : t.find? super = some cls) (hrest : Walks t cls.super (super :: seen) rest) :
      Walks t (some super) seen (super :: rest)

theorem superclassesFrom_eq_ok {super : Option String} {seen above : List String} :
    t.superclassesFrom name super seen = .ok above ↔ t.Walks super seen above := by
  fun_induction t.superclassesFrom name super seen generalizing above with
  | case1 =>
    constructor
    · rintro ⟨⟩
      exact .top
    · rintro ⟨⟩
      rfl
  | case2 seen super hagain =>
    refine iff_of_false (by simp) fun h => ?_
    cases h with
    | up hfresh => exact hfresh (by simpa using hagain)
  | case3 seen super _ hnone =>
    refine iff_of_false (by simp) fun h => ?_
    cases h with
    | up _ hfind => cases hnone.symm.trans hfind
  | case4 seen super hfresh cls hfind _ ih =>
    rw [map_eq_ok]
    constructor
    · rintro ⟨rest, hrest, rfl⟩
      exact .up (by simpa using hfresh) hfind (ih.1 hrest)
    · intro h
      cases h with
      | up _ hfind' hrest =>
        cases hfind.symm.trans hfind'
        exact ⟨_, ih.2 hrest, rfl⟩

namespace Walks

variable {super : Option String} {seen seen' above above' : List String}

theorem unique (h : t.Walks super seen above) (h' : t.Walks super seen' above') :
    above = above' := by
  induction h generalizing seen' above' with
  | top =>
    cases h'
    rfl
  | up _ hfind _ ih =>
    cases h' with
    | up _ hfind' hrest' =>
      cases hfind.symm.trans hfind'
      rw [ih hrest']

theorem of_mem (h : t.Walks super seen above) (hb : b ∈ above) :
    ∃ cls seen' before rest, t.find? b = some cls ∧ t.Walks cls.super seen' rest ∧
      above = before ++ b :: rest := by
  induction h with
  | top => cases hb
  | @up super cls seen rest _ hfind hrest ih =>
    rcases List.mem_cons.1 hb with rfl | hb
    · exact ⟨cls, _, [], rest, hfind, hrest, rfl⟩
    · obtain ⟨cls', seen', before, rest', hfind', hrest', rfl⟩ := ih hb
      exact ⟨cls', seen', super :: before, rest', hfind', hrest', rfl⟩

end Walks

theorem superclasses_eq_ok {above : List String} : t.superclasses a = .ok above ↔
    ∃ cls, t.find? a = some cls ∧ t.Walks cls.super [a] above := by
  simp only [superclasses, bind_eq_ok, lookup_eq_ok, superclassesFrom_eq_ok]

theorem isSubclassOf_eq_true : t.isSubclassOf a b = .ok true ↔
    a = b ∨ ∃ cls above, t.find? a = some cls ∧ t.Walks cls.super [a] above ∧ b ∈ above := by
  unfold isSubclassOf
  split
  · next hab => simp [hab]
  · next hab =>
    simp only [bind_eq_ok, pure_eq_ok, superclasses_eq_ok, hab, false_or, List.contains_eq_mem,
      decide_eq_true_eq]
    constructor
    · rintro ⟨above, ⟨cls, hfind, habove⟩, hb⟩
      exact ⟨cls, above, hfind, habove, hb⟩
    · rintro ⟨cls, above, hfind, habove, hb⟩
      exact ⟨above, ⟨cls, hfind, habove⟩, hb⟩

theorem isSubclassOf_trans (hab : t.isSubclassOf a b = .ok true)
    (hbd : t.isSubclassOf b d = .ok true) : t.isSubclassOf a d = .ok true := by
  rcases isSubclassOf_eq_true.1 hab with rfl | ⟨cls, above, hfind, habove, hb⟩
  · exact hbd
  · rcases isSubclassOf_eq_true.1 hbd with rfl | ⟨cls', above', hfind', habove', hd⟩
    · exact hab
    · -- Both walks go on from `b` in the same way.
      obtain ⟨cls'', seen, before, rest, hfind'', hrest, rfl⟩ := habove.of_mem hb
      cases hfind'.symm.trans hfind''
      obtain rfl := hrest.unique habove'
      have hmem : d ∈ before ++ b :: rest := by simp [hd]
      exact isSubclassOf_eq_true.2 (.inr ⟨cls, _, hfind, habove, hmem⟩)

/-! ### Searches -/

/-- What a search finds, it finds at a name that has every property that the given names have and
that goes up with the search. -/
theorem search_some {α : Type} {stop : String → Option α} {visit : Class → Option α}
    {work seen : List String} {found : α} (h : t.search stop visit work seen = .ok (some found))
    (P : String → Prop) (hwork : ∀ n ∈ work, P n)
    (hup : ∀ n cls, P n → t.find? n = some cls → ∀ m ∈ cls.interfaces ++ cls.super.toList, P m) :
    (∃ n, P n ∧ stop n = some found) ∨
      ∃ n cls, P n ∧ t.find? n = some cls ∧ visit cls = some found := by
  fun_induction t.search stop visit work seen with
  | case1 => cases h
  | case2 seen n work a hstop =>
    cases h
    exact .inl ⟨n, hwork n List.mem_cons_self, hstop⟩
  | case3 seen n work _ _ ih => exact ih h fun m hm => hwork m (List.mem_cons_of_mem _ hm)
  | case4 => cases h
  | case5 seen n work _ _ cls hfind _ a hvisit =>
    cases h
    exact .inr ⟨n, cls, hwork n List.mem_cons_self, hfind, hvisit⟩
  | case6 seen n work _ _ cls hfind _ _ ih =>
    refine ih h fun m hm => ?_
    rcases List.mem_append.1 hm with hm | hm
    · exact hup n cls (hwork n List.mem_cons_self) hfind m hm
    · exact hwork m (List.mem_cons_of_mem _ hm)

/-- The name is that of the root or of an interface, if of anything. -/
def Bare (t : ClassTable) (name : String) : Prop :=
  ∀ cls, t.find? name = some cls → cls.name = objectClass ∨ cls.isInterface = true

theorem WellFormed.bare_above (h : t.WellFormed) (hname : t.Bare name)
    (hfind : t.find? name = some cls) : ∀ m ∈ cls.interfaces ++ cls.super.toList, t.Bare m := by
  have hcls := (mem_of_find? hfind).1
  intro m hm above habove
  obtain ⟨habove', rfl⟩ := mem_of_find? habove
  rcases List.mem_append.1 hm with hm | hm
  · exact .inr (h.interfaces cls hcls (hname cls hfind) above.name hm above habove' rfl)
  · rcases hname cls hfind with hroot | hinterface
    · rw [h.root cls hcls hroot] at hm
      cases hm
    · rw [h.belowRoot cls hcls hinterface] at hm
      exact .inl (List.mem_singleton.1 hm)

theorem WellFormed.static_of_resolveField (h : t.WellFormed) {owner desc : String} {field : Field}
    {decl : Class} (howner : t.Bare owner)
    (hfield : t.resolveField owner name desc = .ok (field, decl)) :
    field.access.has .staticBit = true := by
  obtain ⟨found, hsearch, hfound⟩ := bind_eq_ok.1 hfield
  cases found with
  | none => cases hfound
  | some found =>
    cases hfound
    rcases search_some hsearch t.Bare (by simpa using howner)
      (fun n cls hn hfind => h.bare_above hn hfind) with ⟨n, -, hstop⟩ | ⟨n, cls, hn, hfind, hvisit⟩
    · cases hstop
    · simp only [Option.map_eq_some_iff, Prod.mk.injEq] at hvisit
      obtain ⟨field', hfield', rfl, rfl⟩ := hvisit
      exact h.fields cls (mem_of_find? hfind).1 (hn cls hfind) field'
        (List.mem_of_find?_eq_some hfield')

/-- The answers of a well-formed table fit each other. -/
theorem WellFormed.sound (h : t.WellFormed) : t.hierarchy.Sound where
  trans := isSubclassOf_trans
  top {b} hb := by
    rcases isSubclassOf_eq_true.1 hb with rfl | ⟨cls, above, hfind, habove, hmem⟩
    · rfl
    · obtain ⟨hcls, hname⟩ := mem_of_find? hfind
      rw [h.root cls hcls hname] at habove
      cases habove
      cases hmem
  above {a b} hab hne := by
    rcases isSubclassOf_eq_true.1 hab with rfl | ⟨cls, above, hfind, habove, hmem⟩
    · exact absurd rfl hne
    · obtain ⟨cls', -, -, -, hfind', -⟩ := habove.of_mem hmem
      obtain ⟨hcls', rfl⟩ := mem_of_find? hfind'
      exact ⟨h.names cls' hcls', cls', lookup_eq_ok.2 hfind'⟩
  fields {owner name desc field decl} howner hfield := by
    refine h.static_of_resolveField (fun cls hfind => ?_) hfield
    obtain ⟨-, hname⟩ := mem_of_find? hfind
    rcases howner with hroot | hinterface
    · exact .inl (hname.trans hroot)
    · obtain ⟨cls', hlookup, hcls'⟩ := map_eq_ok.1 (mapError_eq_ok.1 hinterface)
      cases hfind.symm.trans (lookup_eq_ok.1 hlookup)
      exact .inr hcls'

end Bytecode.ClassTable
