import Mathlib.Data.List.Forall2
import Bytecode.Frame
import Bytecode.Proofs.Failing

/-!
The order of value types and of frames.

Main statement: `Frame.covers_merge`, the merge of two frames covers both.
-/
namespace Bytecode

open List

namespace Hierarchy

open ValueType

/-- The order of value types: the least preorder with null below every reference, every reference
below the root class, a class below its superclasses, and an array of references below another if
its components are below the other's. -/
inductive Below (h : Hierarchy) : ValueType → ValueType → Prop
  | refl (a : ValueType) : Below h a a
  | null (name : String) : Below h .null (.reference name)
  | root (name : String) : Below h (.reference name) (.reference objectClass)
  | subclass {a b : String} (isClass : namesArray a = false) (sub : h.isSubclassOf a b = .ok true) :
      Below h (.reference a) (.reference b)
  | array {a b : ValueType} {component : FieldType} (isArray : a.component? = some component)
      (isReference : component.isReference = true) (below : Below h (ofFieldType component) b) :
      Below h a b.arrayOf
  | trans {a b d : ValueType} (ab : Below h a b) (bd : Below h b d) : Below h a d

/-- The nearest common superclass of two classes is above both, or it is the root. -/
def Coherent (h : Hierarchy) : Prop :=
  ∀ a b d, h.commonSuperclass a b = .ok d →
    d = objectClass ∨ (h.isSubclassOf a d = .ok true ∧ h.isSubclassOf b d = .ok true)

variable {h : Hierarchy}

variable {a b d : ValueType} {t : FieldType}

theorem component?_eq_some {component : FieldType} (ha : a.component? = some component) :
    ∃ name, a = .reference name ∧ namesArray name = true := by
  unfold component? at ha
  split at ha
  · cases a <;> simp_all [isArray]
  · cases ha

theorem ofFieldType_of_isReference (ht : t.isReference = true) :
    ∃ name, ofFieldType t = .reference name := by
  unfold ofFieldType
  split
  · exact ⟨_, rfl⟩
  · next hd =>
    cases he : t.element <;> simp_all [FieldType.isReference]

theorem eq_reference_of_isReference (ha : a.isReference = true) (hn : a ≠ .null) :
    ∃ name, a = .reference name := by
  cases a <;> simp_all [isReference]

theorem Below.eq_or_reference (hab : Below h a b) :
    a = b ∨ (a.isReference = true ∧ ∃ name, b = .reference name) := by
  induction hab with
  | refl => exact .inl rfl
  | null name => exact .inr ⟨rfl, name, rfl⟩
  | root => exact .inr ⟨rfl, objectClass, rfl⟩
  | @subclass _ b => exact .inr ⟨rfl, b, rfl⟩
  | array isArray isRef _ ih =>
    obtain ⟨name, rfl, -⟩ := component?_eq_some isArray
    obtain ⟨element, he⟩ := ofFieldType_of_isReference isRef
    rw [he] at ih
    rcases ih with rfl | ⟨-, b, rfl⟩
    · exact .inr ⟨rfl, _, rfl⟩
    · exact .inr ⟨rfl, _, rfl⟩
  | trans _ _ ih₁ ih₂ =>
    rcases ih₁ with rfl | ⟨ha, b, rfl⟩
    · exact ih₂
    · rcases ih₂ with rfl | ⟨-, hd⟩
      · exact .inr ⟨ha, b, rfl⟩
      · exact .inr ⟨ha, hd⟩

theorem Below.eq_of_not_isReference (hab : Below h a b) (ha : a.isReference = false) : a = b := by
  rcases hab.eq_or_reference with rfl | ⟨ha', -⟩
  · rfl
  · simp [ha] at ha'

theorem Below.eq_of_not_reference (hab : Below h a b) (hb : ∀ name, b ≠ .reference name) :
    a = b := by
  rcases hab.eq_or_reference with rfl | ⟨-, name, rfl⟩
  · rfl
  · exact absurd rfl (hb name)

/-! ### Joins -/

theorem joinClasses_ok (hd : h.joinClasses a b = .ok d) :
    d = .reference objectClass ∨
      ∃ common, h.commonSuperclass a.name b.name = .ok common ∧ d = .reference common := by
  simp only [joinClasses, bind_eq_ok, ite_eq_ok, pure_eq_ok, mapError_eq_ok] at hd
  obtain ⟨ia, -, hroot, hd⟩ := hd
  cases ia with
  | true => exact .inl (hroot rfl).symm
  | false =>
    obtain ⟨ib, -, hroot, hd⟩ := hd (by decide)
    cases ib with
    | true => exact .inl (hroot rfl).symm
    | false =>
      obtain ⟨common, hcommon, rfl⟩ := hd (by decide)
      exact .inr ⟨common, hcommon, rfl⟩

theorem joinClasses_above (hc : h.Coherent) {a b : String} (ha : namesArray a = false)
    (hb : namesArray b = false) (hd : h.joinClasses (.reference a) (.reference b) = .ok d) :
    Below h (.reference a) d ∧ Below h (.reference b) d := by
  rcases joinClasses_ok hd with rfl | ⟨common, hcommon, rfl⟩
  · exact ⟨.root a, .root b⟩
  · rcases hc a b common hcommon with rfl | ⟨hac, hbc⟩
    · exact ⟨.root a, .root b⟩
    · exact ⟨.subclass ha hac, .subclass hb hbc⟩

theorem null_below (ha : a.isReference = true) : Below h .null a := by
  by_cases hn : a = .null
  · subst hn
    exact .refl _
  · obtain ⟨name, rfl⟩ := eq_reference_of_isReference ha hn
    exact .null name

theorem below_root (ha : a.isReference = true) : Below h a (.reference objectClass) := by
  by_cases hn : a = .null
  · subst hn
    exact .null objectClass
  · obtain ⟨name, rfl⟩ := eq_reference_of_isReference ha hn
    exact .root name

theorem isReference_ofFieldType (ht : t.isReference = true) :
    (ofFieldType t).isReference = true := by
  obtain ⟨name, hn⟩ := ofFieldType_of_isReference ht
  rw [hn]
  rfl

theorem isReference_join (ha : a.isReference = true) (hb : b.isReference = true)
    (hd : h.join a b = .ok d) : d.isReference = true ∧ (a ≠ .null → d ≠ .null) := by
  fun_induction h.join a b generalizing d with
  | case1 =>
    cases hd
    exact ⟨ha, id⟩
  | case2 =>
    cases hd
    exact ⟨hb, fun hne => absurd rfl hne⟩
  | case3 =>
    cases hd
    exact ⟨ha, id⟩
  | case4 a b _ _ _ _ ca cb hca hcb href _ ih =>
    obtain ⟨hra, hrb⟩ := Bool.and_eq_true_iff.1 href
    obtain ⟨e, he, rfl⟩ := map_eq_ok.1 hd
    obtain ⟨name, hname⟩ := ofFieldType_of_isReference hra
    obtain ⟨hre, hne⟩ := ih (isReference_ofFieldType hra) (isReference_ofFieldType hrb) he
    obtain ⟨x, rfl⟩ := eq_reference_of_isReference hre (hne (by simp [hname]))
    exact ⟨rfl, fun _ => by simp [arrayOf]⟩
  | case5 | case6 =>
    cases hd
    exact ⟨rfl, fun _ => by simp⟩
  | case7 =>
    rcases joinClasses_ok hd with rfl | ⟨common, -, rfl⟩
    · exact ⟨rfl, fun _ => by simp⟩
    · exact ⟨rfl, fun _ => by simp⟩

theorem join_above (hc : h.Coherent) (ha : a.isReference = true) (hb : b.isReference = true)
    (hd : h.join a b = .ok d) : Below h a d ∧ Below h b d := by
  fun_induction h.join a b generalizing d with
  | case1 =>
    cases hd
    exact ⟨.refl _, .refl _⟩
  | case2 =>
    cases hd
    exact ⟨null_below hb, .refl _⟩
  | case3 =>
    cases hd
    exact ⟨.refl _, null_below ha⟩
  | case4 a b _ _ _ _ ca cb hca hcb href _ ih =>
    obtain ⟨hra, hrb⟩ := Bool.and_eq_true_iff.1 href
    obtain ⟨e, he, rfl⟩ := map_eq_ok.1 hd
    obtain ⟨hae, hbe⟩ := ih (isReference_ofFieldType hra) (isReference_ofFieldType hrb) he
    exact ⟨.array hca hra hae, .array hcb hrb hbe⟩
  | case5 | case6 =>
    cases hd
    exact ⟨below_root ha, below_root hb⟩
  | case7 a b _ hna hnb harray =>
    obtain ⟨x, rfl⟩ := eq_reference_of_isReference ha hna
    obtain ⟨y, rfl⟩ := eq_reference_of_isReference hb hnb
    simp only [isArray, Bool.or_eq_true, not_or, Bool.not_eq_true] at harray
    exact joinClasses_above hc harray.1 harray.2 hd

end Hierarchy

/-! ### Merging entry by entry -/

section MergeEntries

variable {merge : Nat → ValueType → ValueType → Except Failure ValueType}
  {changed changed' : Bool}

theorem mergeEntries_go_eq_ok {P Q : ValueType → ValueType → Prop}
    (hm : ∀ i a b d, merge i a b = .ok d → P a d ∧ Q b d) {i : Nat}
    {merged mine theirs r : List ValueType} (hl : mine.length = theirs.length)
    (h : mergeEntries.go merge i merged changed mine theirs = (r, .ok changed')) :
    ∃ new, r = merged.reverse ++ new ∧ Forall₂ P mine new ∧ Forall₂ Q theirs new := by
  induction mine generalizing i merged changed theirs with
  | nil =>
    cases theirs with
    | nil =>
      simp only [mergeEntries.go, Prod.mk.injEq] at h
      exact ⟨[], h.1.symm, .nil, .nil⟩
    | cons => simp at hl
  | cons a mine ih =>
    cases theirs with
    | nil => simp at hl
    | cons b theirs =>
      rw [mergeEntries.go] at h
      split at h
      · next d hd =>
        obtain ⟨new, rfl, hP, hQ⟩ := ih (by simpa using hl) h
        obtain ⟨hp, hq⟩ := hm i a b d hd
        exact ⟨d :: new, by simp, .cons hp hP, .cons hq hQ⟩
      · cases h

/-- What every merge of two entries has to do with either side, a merge of lists has entry by
entry. -/
theorem mergeEntries_eq_ok {P Q : ValueType → ValueType → Prop}
    {mine theirs r : List ValueType} (h : mergeEntries merge mine theirs = (r, .ok changed))
    (hl : mine.length = theirs.length) (hm : ∀ i a b d, merge i a b = .ok d → P a d ∧ Q b d) :
    Forall₂ P mine r ∧ Forall₂ Q theirs r := by
  obtain ⟨new, rfl, hPQ⟩ := mergeEntries_go_eq_ok hm hl h
  simpa using hPQ

theorem mergeEntries_changed {mine theirs r : List ValueType}
    (h : mergeEntries merge mine theirs = (r, .ok changed)) : changed = (r != mine) := by
  -- The flag is that of the entries merged before, or there is a change in those to come.
  suffices hgo : ∀ i merged before, mergeEntries.go merge i merged before mine theirs =
      (r, .ok changed) → ∃ new, r = merged.reverse ++ new ∧ changed = (before || new != mine) by
    obtain ⟨new, rfl, hchanged⟩ := hgo 0 [] false h
    simpa using hchanged
  clear h
  intro i merged before h
  fun_induction mergeEntries.go merge i merged before mine theirs with
  | case1 i merged before a mine b theirs d hd ih =>
    obtain ⟨new, rfl, rfl⟩ := ih h
    exact ⟨d :: new, by simp, by simp [bne, Bool.or_assoc]⟩
  | case2 => cases h
  | case3 =>
    cases h
    exact ⟨_, rfl, by simp⟩

theorem mergeEntries_go_fst (i : Nat) (merged : List ValueType) (changed : Bool)
    (mine theirs : List ValueType) :
    ∃ new, (mergeEntries.go merge i merged changed mine theirs).1 = merged.reverse ++ new ∧
      Forall₂ (fun a d => a = d ∨ ∃ i b, b ∈ theirs ∧ merge i a b = .ok d) mine new := by
  induction mine generalizing i merged changed theirs with
  | nil => exact ⟨[], by simp [mergeEntries.go], .nil⟩
  | cons a mine ih =>
    cases theirs with
    | nil => exact ⟨a :: mine, by simp [mergeEntries.go], List.forall₂_same.2 (by simp)⟩
    | cons b theirs =>
      rw [mergeEntries.go]
      split
      · next d hd =>
        obtain ⟨new, hnew, hall⟩ := ih (i + 1) (d :: merged) (changed || d != a) theirs
        refine ⟨d :: new, by simp [hnew], .cons (.inr ⟨i, b, by simp, hd⟩) ?_⟩
        refine hall.imp fun x y hxy => ?_
        rcases hxy with rfl | ⟨j, e, he, hj⟩
        · exact .inl rfl
        · exact .inr ⟨j, e, mem_cons_of_mem b he, hj⟩
      · exact ⟨a :: mine, rfl, List.forall₂_same.2 (by simp)⟩

theorem mergeEntries_fst (mine theirs : List ValueType) :
    Forall₂ (fun a d => a = d ∨ ∃ i b, b ∈ theirs ∧ merge i a b = .ok d) mine
      (mergeEntries merge mine theirs).1 := by
  obtain ⟨new, hnew, hall⟩ := @mergeEntries_go_fst merge 0 [] false mine theirs
  rw [mergeEntries, hnew]
  simpa using hall

end MergeEntries

/-! ### Frames -/

/-- A local variable says no more than another: it is unusable, or above the other, or above what
the other becomes once it is initialized. -/
def Hierarchy.LocalBelow (h : Hierarchy) (a b : ValueType) : Prop :=
  b = .unknown ∨ h.Below a b ∨ (a.isUninitialized = true ∧ h.Below a.initialized b)

namespace Frame

variable {h : Hierarchy}

/-- The frame `g` covers `f`: entry by entry it says no more than `f`. -/
structure Covers (h : Hierarchy) (g f : Frame) : Prop where
  stack : Forall₂ h.Below f.stack.values g.stack.values
  locals : Forall₂ h.LocalBelow f.locals.toList g.locals.toList
  thisUninitialized : f.thisUninitialized = true → g.thisUninitialized = true

variable {a b d : ValueType} {f g : Frame} {i : Nat}

theorem localBelow_trans (hab : h.LocalBelow a b) (hbd : h.LocalBelow b d) : h.LocalBelow a d := by
  rcases hbd with rfl | hbd | ⟨hb, hbd⟩
  · exact .inl rfl
  · rcases hab with rfl | hab | ⟨ha, hab⟩
    · exact .inl (hbd.eq_of_not_isReference rfl).symm
    · exact .inr (.inl (hab.trans hbd))
    · exact .inr (.inr ⟨ha, hab.trans hbd⟩)
  · -- Nothing but itself is below a marker.
    have hne : ∀ name, b ≠ .reference name := by
      rintro name rfl
      simp [ValueType.isUninitialized] at hb
    rcases hab with rfl | hab | ⟨ha, hab⟩
    · simp [ValueType.isUninitialized] at hb
    · obtain rfl := hab.eq_of_not_reference hne
      exact .inr (.inr ⟨hb, hbd⟩)
    · exact absurd (hab.eq_of_not_reference hne).symm (hne _)

@[refl] theorem Covers.refl (f : Frame) : f.Covers h f where
  stack := List.forall₂_same.2 fun a _ => .refl a
  locals := List.forall₂_same.2 fun a _ => .inr (.inl (.refl a))
  thisUninitialized := id

theorem forall₂_trans {R : ValueType → ValueType → Prop}
    {l₁ l₂ l₃ : List ValueType} (h₁ : Forall₂ R l₁ l₂) (h₂ : Forall₂ R l₂ l₃)
    (hR : ∀ a b d, R a b → R b d → R a d) : Forall₂ R l₁ l₃ := by
  induction h₁ generalizing l₃ with
  | nil => simpa using h₂
  | cons hab _ ih =>
    cases h₂ with
    | cons hbd h₂ => exact .cons (hR _ _ _ hab hbd) (ih h₂)

theorem Covers.trans {k : Frame} (hgk : g.Covers h k) (hfg : f.Covers h g) :
    f.Covers h k where
  stack := forall₂_trans hgk.stack hfg.stack fun _ _ _ => .trans
  locals := forall₂_trans hgk.locals hfg.locals fun _ _ _ => localBelow_trans
  thisUninitialized := hfg.thisUninitialized ∘ hgk.thisUninitialized

theorem same_iff : f.same g = true ↔
    f.stack.values = g.stack.values ∧ f.locals = g.locals ∧
      f.thisUninitialized = g.thisUninitialized := by
  simp only [same, Bool.and_eq_true, beq_iff_eq]
  constructor
  · rintro ⟨⟨h₁, h₂⟩, h₃⟩
    exact ⟨h₂, h₃, h₁⟩
  · rintro ⟨h₁, h₂, h₃⟩
    exact ⟨⟨h₃, h₁⟩, h₂⟩

theorem Covers.of_same {f' g' : Frame} (hgf : g.Covers h f) (hg : g.same g' = true)
    (hf : f.same f' = true) : g'.Covers h f' := by
  obtain ⟨hg₁, hg₂, hg₃⟩ := same_iff.1 hg
  obtain ⟨hf₁, hf₂, hf₃⟩ := same_iff.1 hf
  exact ⟨hg₁ ▸ hf₁ ▸ hgf.stack, hg₂ ▸ hf₂ ▸ hgf.locals, hg₃ ▸ hf₃ ▸ hgf.thisUninitialized⟩

/-! ### Merging frames -/

/-- A value is on the stack or in a local variable. -/
def Has (f : Frame) (v : ValueType) : Prop :=
  v ∈ f.stack.values ∨ v ∈ f.locals

instance (f : Frame) (v : ValueType) : Decidable (f.Has v) :=
  inferInstanceAs (Decidable (_ ∨ _))

theorem exists_mem_of_forall₂ {R : ValueType → ValueType → Prop} {l l' : List ValueType}
    (hl : Forall₂ R l l') (hd : d ∈ l') : ∃ a ∈ l, R a d := by
  induction hl with
  | nil => cases hd
  | cons had _ ih =>
    rcases mem_cons.1 hd with rfl | hd
    · exact ⟨_, mem_cons_self, had⟩
    · obtain ⟨a, ha, had⟩ := ih hd
      exact ⟨a, mem_cons_of_mem _ ha, had⟩

theorem mergeStack_eq_ok {mine theirs stack : Stack} {changed : Bool} :
    mergeStack h mine theirs = (stack, .ok changed) ↔
      mine.size = theirs.size ∧ mine.slots = theirs.slots ∧ stack.max = mine.max ∧
        mergeEntries h.mergeStackEntry mine.bottomUp theirs.bottomUp =
          (stack.bottomUp, .ok changed) := by
  unfold mergeStack
  split
  · next hsizes =>
    constructor
    · intro hm
      cases hm
    · rintro ⟨hsize, hslots, -⟩
      exact absurd hsizes (by simp [hsize, hslots])
  · next hsizes =>
    simp only [ne_eq, not_or, Decidable.not_not] at hsizes
    rcases mergeEntries h.mergeStackEntry mine.bottomUp theirs.bottomUp with ⟨values, outcome⟩
    obtain ⟨values', max⟩ := stack
    simp only [Stack.bottomUp, hsizes, Prod.mk.injEq, Stack.mk.injEq, reverse_eq_iff,
      true_and, and_assoc, eq_comm (a := max), and_left_comm (a := values = values'.reverse)]

theorem mergeLocals_eq_ok {mine theirs locals : Array ValueType} {changed : Bool} :
    mergeLocals h mine theirs = (locals, .ok changed) ↔ mine.size = theirs.size ∧
      mergeEntries h.mergeLocal mine.toList theirs.toList = (locals.toList, .ok changed) := by
  unfold mergeLocals
  split
  · next hsize => simp [hsize]
  · next hsize =>
    rcases mergeEntries h.mergeLocal mine.toList theirs.toList with ⟨values, outcome⟩
    obtain ⟨values'⟩ := locals
    simp [Decidable.not_not.1 hsize]

theorem merge_eq_ok_iff {m : Frame} {changed : Bool} : merge h f g = (m, .ok changed) ↔
    ∃ stackChanged localsChanged, mergeStack h f.stack g.stack = (m.stack, .ok stackChanged) ∧
      mergeLocals h f.locals g.locals = (m.locals, .ok localsChanged) ∧
      m.thisUninitialized = (f.thisUninitialized || g.thisUninitialized) ∧
      changed = (stackChanged || localsChanged ||
        (g.thisUninitialized && !f.thisUninitialized)) := by
  obtain ⟨stack', locals', flag⟩ := m
  unfold merge
  rcases mergeStack h f.stack g.stack with ⟨stack, e | stackChanged⟩
  · simp
  · rcases mergeLocals h f.locals g.locals with ⟨locals, e | localsChanged⟩
    · simp
    · simp only [Prod.mk.injEq, mk.injEq, Except.ok.injEq]
      constructor
      · rintro ⟨⟨rfl, rfl, rfl⟩, rfl⟩
        exact ⟨_, _, ⟨rfl, rfl⟩, ⟨rfl, rfl⟩, rfl, rfl⟩
      · rintro ⟨_, _, ⟨rfl, rfl⟩, ⟨rfl, rfl⟩, rfl, rfl⟩
        exact ⟨⟨rfl, rfl, rfl⟩, rfl⟩

/-- A merge of frames says that it changed one exactly if it did. -/
theorem merge_changed {m : Frame} {changed : Bool} (hm : merge h f g = (m, .ok changed)) :
    changed = !m.same f := by
  obtain ⟨stackChanged, localsChanged, hstack, hlocals, hflag, rfl⟩ := merge_eq_ok_iff.1 hm
  obtain rfl := mergeEntries_changed (mergeStack_eq_ok.1 hstack).2.2.2
  obtain rfl := mergeEntries_changed (mergeLocals_eq_ok.1 hlocals).2
  have hvalues : (m.stack.bottomUp != f.stack.bottomUp) = !(m.stack.values == f.stack.values) := by
    rw [bne, Bool.eq_iff_iff]
    simp [Stack.bottomUp]
  have hlist : (m.locals.toList != f.locals.toList) = !(m.locals == f.locals) := by
    simp [bne]
  rw [same, hvalues, hlist, hflag]
  cases f.thisUninitialized <;> cases g.thisUninitialized <;> simp

theorem merge_unchanged {m : Frame} (hm : merge h f g = (m, .ok false)) : m = f := by
  obtain ⟨_, _, hstack, -, -, -⟩ := merge_eq_ok_iff.1 hm
  have hsame : m.same f = true := by simpa using merge_changed hm
  obtain ⟨hvalues, hlocals, hflag⟩ := same_iff.1 hsame
  obtain ⟨⟨values, max⟩, locals, flag⟩ := m
  have hmax : max = f.stack.max := (mergeStack_eq_ok.1 hstack).2.2.1
  subst hvalues hlocals hflag hmax
  rfl

theorem merge_changed_iff {m : Frame} {changed : Bool} (hm : merge h f g = (m, .ok changed)) :
    changed = true ↔ m ≠ f := by
  constructor
  · rintro rfl rfl
    have hchanged := merge_changed hm
    rw [same_iff.2 ⟨rfl, rfl, rfl⟩] at hchanged
    cases hchanged
  · intro hne
    cases changed with
    | true => rfl
    | false => exact absurd (merge_unchanged hm) hne

theorem mergeStackEntry_ok (hd : h.mergeStackEntry i a b = .ok d) :
    (a = b ∧ d = a) ∨ (a.isReference = true ∧ b.isReference = true ∧ h.join a b = .ok d) := by
  unfold Hierarchy.mergeStackEntry at hd
  simp only at hd
  split at hd
  · next hab =>
    cases hd
    exact .inl ⟨hab, rfl⟩
  · repeat' split at hd
    · cases hd
    · cases hd
    · next href =>
      obtain ⟨ha, hb⟩ := Bool.and_eq_true_iff.1 href
      exact .inr ⟨ha, hb, mapError_eq_ok.1 hd⟩
    · cases hd

/-- What a local variable counts as in a merge: an object as if it were initialized. -/
def asInitialized (a : ValueType) : ValueType :=
  if a.isUninitialized then a.initialized else a

theorem mergeLocal_ok (hd : h.mergeLocal i a b = .ok d) :
    (a = b ∧ d = a) ∨ d = .unknown ∨ (asInitialized a = b ∧ d = b) ∨
      ((asInitialized a).isReference = true ∧ b.isReference = true ∧
        h.join (asInitialized a) b = .ok d) := by
  unfold Hierarchy.mergeLocal at hd
  simp only at hd
  split at hd
  · next hab =>
    cases hd
    exact .inl ⟨hab, rfl⟩
  · split at hd
    · split at hd <;> cases hd
    · rw [← asInitialized] at hd
      split at hd
      · next he =>
        cases hd
        exact .inr (.inr (.inl ⟨he, he⟩))
      · split at hd
        · next href =>
          obtain ⟨ha, hb⟩ := Bool.and_eq_true_iff.1 href
          exact .inr (.inr (.inr ⟨ha, hb, mapError_eq_ok.1 hd⟩))
        · cases hd
          exact .inr (.inl rfl)

theorem mergeStackEntry_above (hc : h.Coherent) (hd : h.mergeStackEntry i a b = .ok d) :
    h.Below a d ∧ h.Below b d := by
  rcases mergeStackEntry_ok hd with ⟨rfl, rfl⟩ | ⟨ha, hb, hd⟩
  · exact ⟨.refl _, .refl _⟩
  · exact Hierarchy.join_above hc ha hb hd

theorem localBelow_of_asInitialized (h' : h.Below (asInitialized a) d) : h.LocalBelow a d := by
  unfold asInitialized at h'
  split at h'
  · next ha => exact .inr (.inr ⟨ha, h'⟩)
  · exact .inr (.inl h')

theorem mergeLocal_above (hc : h.Coherent) (hd : h.mergeLocal i a b = .ok d) :
    h.LocalBelow a d ∧ h.LocalBelow b d := by
  rcases mergeLocal_ok hd with ⟨rfl, rfl⟩ | rfl | ⟨he, rfl⟩ | ⟨ha, hb, hd⟩
  · exact ⟨.inr (.inl (.refl _)), .inr (.inl (.refl _))⟩
  · exact ⟨.inl rfl, .inl rfl⟩
  · exact ⟨localBelow_of_asInitialized (he ▸ .refl _), .inr (.inl (.refl _))⟩
  · obtain ⟨had, hbd⟩ := Hierarchy.join_above hc ha hb hd
    exact ⟨localBelow_of_asInitialized had, .inr (.inl hbd)⟩

section Entries

variable {P Q R S : ValueType → ValueType → Prop}

theorem merge_eq_ok {m : Frame} {changed : Bool} (hm : merge h f g = (m, .ok changed))
    (hstack : ∀ i a b d, h.mergeStackEntry i a b = .ok d → P a d ∧ Q b d)
    (hlocal : ∀ i a b d, h.mergeLocal i a b = .ok d → R a d ∧ S b d) :
    (Forall₂ P f.stack.values m.stack.values ∧ Forall₂ Q g.stack.values m.stack.values) ∧
      (Forall₂ R f.locals.toList m.locals.toList ∧
        Forall₂ S g.locals.toList m.locals.toList) ∧
      m.stack.max = f.stack.max ∧
      m.thisUninitialized = (f.thisUninitialized || g.thisUninitialized) := by
  obtain ⟨stackChanged, localsChanged, hstacks, hlocals, hflag, -⟩ := merge_eq_ok_iff.1 hm
  obtain ⟨hsize, -, hmax, hentries⟩ := mergeStack_eq_ok.1 hstacks
  obtain ⟨hcount, hvalues⟩ := mergeLocals_eq_ok.1 hlocals
  have hl : f.stack.bottomUp.length = g.stack.bottomUp.length := by
    simpa [Stack.size, Stack.bottomUp] using hsize
  obtain ⟨hP, hQ⟩ := mergeEntries_eq_ok hentries hl hstack
  exact ⟨⟨List.forall₂_reverse_iff.1 hP, List.forall₂_reverse_iff.1 hQ⟩,
    mergeEntries_eq_ok hvalues (by simpa using hcount) hlocal, hmax, hflag⟩

/-- Whether or not it succeeds, a merge of frames leaves each entry as it was or merged. -/
theorem merge_fst {m : Frame} {e : Except Failure Bool} (hm : merge h f g = (m, e))
    (hstack : ∀ a d, (a = d ∨ ∃ i b, g.Has b ∧ h.mergeStackEntry i a b = .ok d) → P a d)
    (hlocal : ∀ a d, (a = d ∨ ∃ i b, g.Has b ∧ h.mergeLocal i a b = .ok d) → R a d) :
    Forall₂ P f.stack.values m.stack.values ∧
      Forall₂ R f.locals.toList m.locals.toList := by
  have hsame : ∀ l : List ValueType, Forall₂ P l l := fun l =>
    List.forall₂_same.2 fun a _ => hstack a a (.inl rfl)
  have hsame' : ∀ l : List ValueType, Forall₂ R l l := fun l =>
    List.forall₂_same.2 fun a _ => hlocal a a (.inl rfl)
  have hstacks : Forall₂ P f.stack.values (mergeStack h f.stack g.stack).1.values := by
    unfold mergeStack
    split
    · exact hsame _
    · rw [← List.forall₂_reverse_iff, reverse_reverse]
      refine (mergeEntries_fst f.stack.bottomUp g.stack.bottomUp).imp fun a d had => hstack a d ?_
      exact had.imp_right fun ⟨i, b, hmem, hb⟩ => ⟨i, b, .inl (mem_reverse.1 hmem), hb⟩
  have hlocals : Forall₂ R f.locals.toList (mergeLocals h f.locals g.locals).1.toList := by
    unfold mergeLocals
    split
    · exact hsame' _
    · refine (mergeEntries_fst f.locals.toList g.locals.toList).imp fun a d had => hlocal a d ?_
      exact had.imp_right fun ⟨i, b, hmem, hb⟩ => ⟨i, b, .inr (Array.mem_toList_iff.1 hmem), hb⟩
  unfold merge at hm
  split at hm
  · next hs =>
    cases hm
    rw [hs] at hstacks
    exact ⟨hstacks, hsame' _⟩
  · next hs =>
    rw [hs] at hstacks
    split at hm
    · next hl =>
      cases hm
      rw [hl] at hlocals
      exact ⟨hstacks, hlocals⟩
    · next hl =>
      cases hm
      rw [hl] at hlocals
      exact ⟨hstacks, hlocals⟩

end Entries

theorem covers_merge (hc : h.Coherent) {m : Frame} {changed : Bool}
    (hm : merge h f g = (m, .ok changed)) : m.Covers h f ∧ m.Covers h g := by
  obtain ⟨⟨hf, hg⟩, ⟨hf', hg'⟩, -, hflag⟩ := merge_eq_ok hm
    (fun _ _ _ _ => mergeStackEntry_above hc) fun _ _ _ _ => mergeLocal_above hc
  exact ⟨⟨hf, hf', by simp_all⟩, ⟨hg, hg', by simp_all⟩⟩

end Frame

end Bytecode
