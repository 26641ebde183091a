import Bytecode.Proofs.Joins
import Bytecode.Proofs.LargerFrames

/-!
The order in which frames are merged does not matter, as long as no local variable holds a marker.

A merge gives the least of what is above both sides, and where it fails nothing is above both. So
does a fold of merges for all the frames it goes through, and that is the same for every order of
them.

Main statement: `mergeAll_perm`.
-/
namespace Bytecode

open Hierarchy List

/-! ### Least upper bounds -/

section LeastMerge

variable {α : Type} {R : α → α → Prop} {P : α → Prop} {a b d : α}

/-- The least of what is above both `a` and `b`. -/
structure IsJoinOf (R : α → α → Prop) (a b d : α) : Prop where
  left : R a d
  right : R b d
  least : ∀ w, R a w → R b w → R d w

/-- A merge that gives the least of what is above both sides, and rejects where there is nothing. -/
structure LeastMerge (R : α → α → Prop) (P : α → Prop) (merge : α → α → Except Failure α) :
    Prop where
  ok : ∀ {a b d}, P a → P b → merge a b = .ok d → P d ∧ IsJoinOf R a b d
  error : ∀ {a b e}, P a → P b → merge a b = .error e →
    (∃ r, e = .rejected r) ∧ ∀ w, R a w → ¬R b w

/-- What a merge gives, or why it fails. -/
def outcome (r : α × Except Failure Bool) : Except Failure α :=
  r.2.map fun _ => r.1

theorem outcome_eq_ok {r : α × Except Failure Bool} :
    outcome r = .ok d ↔ ∃ changed, r = (d, .ok changed) := by
  rcases r with ⟨d', e | changed⟩ <;> simp [outcome, Except.map]

theorem outcome_eq_error {r : α × Except Failure Bool} {e : Failure} :
    outcome r = .error e ↔ r.2 = .error e := by
  rcases r with ⟨d', e' | changed⟩ <;> simp [outcome, Except.map]

/-- A fold of merges gives the least of what is above all, and rejects where there is nothing. -/
theorem LeastMerge.foldlM {merge : α → α → Except Failure α} (hmerge : LeastMerge R P merge)
    (hrefl : ∀ a, R a a) (htrans : ∀ a b d, R a b → R b d → R a d) {a : α} {l : List α} (ha : P a)
    (hl : ∀ b ∈ l, P b) :
    (∀ d, l.foldlM merge a = .ok d →
      (∀ b ∈ a :: l, R b d) ∧ ∀ w, (∀ b ∈ a :: l, R b w) → R d w) ∧
    ∀ e, l.foldlM merge a = .error e →
      (∃ r, e = .rejected r) ∧ ∀ w, ¬∀ b ∈ a :: l, R b w := by
  induction l generalizing a with
  | nil =>
    refine ⟨fun d hd => ?_, fun e he => ?_⟩
    · cases hd
      exact ⟨by simpa using hrefl a, fun w hw => hw a mem_cons_self⟩
    · cases he
  | cons b l ih =>
    obtain ⟨hb, hl⟩ := forall_mem_cons.1 hl
    rw [foldlM_cons]
    cases hab : merge a b with
    | error e =>
      refine ⟨fun d hd => ?_, fun _ he => ?_⟩
      · cases hd
      · cases he
        obtain ⟨hrejected, hapart⟩ := hmerge.error ha hb hab
        exact ⟨hrejected, fun w hw => hapart w (hw a (by simp)) (hw b (by simp))⟩
    | ok m =>
      obtain ⟨hm, hjoin⟩ := hmerge.ok ha hb hab
      obtain ⟨hok, herror⟩ := ih hm hl
      -- What is above the merge and the rest is what is above all.
      have habove : ∀ w, (∀ x ∈ m :: l, R x w) ↔ ∀ x ∈ a :: b :: l, R x w := by
        intro w
        simp only [forall_mem_cons]
        constructor
        · rintro ⟨hmw, hlw⟩
          exact ⟨htrans _ _ _ hjoin.left hmw, htrans _ _ _ hjoin.right hmw, hlw⟩
        · rintro ⟨haw, hbw, hlw⟩
          exact ⟨hjoin.least w haw hbw, hlw⟩
      refine ⟨fun d hd => ?_, fun e he => ?_⟩
      · obtain ⟨hupper, hleast⟩ := hok d hd
        exact ⟨(habove d).1 hupper, fun w hw => hleast w ((habove w).2 hw)⟩
      · obtain ⟨hrejected, hnone⟩ := herror e he
        exact ⟨hrejected, fun w hw => hnone w ((habove w).2 hw)⟩

end LeastMerge

/-! ### Lists of values -/

section Entries

variable {R : ValueType → ValueType → Prop} {P : ValueType → Prop}
  {merge : Nat → ValueType → ValueType → Except Failure ValueType}

theorem mergeEntries_go_least (hmerge : ∀ i, LeastMerge R P (merge i)) {i : Nat}
    {merged mine theirs r : List ValueType} {changed : Bool} {e : Except Failure Bool}
    (hl : mine.length = theirs.length) (hmine : ∀ a ∈ mine, P a) (htheirs : ∀ b ∈ theirs, P b)
    (h : mergeEntries.go merge i merged changed mine theirs = (r, e)) :
    (∀ changed', e = .ok changed' → ∃ new, r = merged.reverse ++ new ∧ (∀ a ∈ new, P a) ∧
      IsJoinOf (Forall₂ R) mine theirs new) ∧
    ∀ e', e = .error e' → (∃ x, e' = .rejected x) ∧
      ∀ w, Forall₂ R mine w → ¬Forall₂ R theirs w := by
  induction mine generalizing i merged changed theirs with
  | nil =>
    cases theirs with
    | nil =>
      cases h
      exact ⟨fun _ _ => ⟨[], rfl, by simp, .nil, .nil, fun w hw _ => hw⟩, by simp⟩
    | cons => cases hl
  | cons a mine ih =>
    cases theirs with
    | nil => cases hl
    | cons b theirs =>
      obtain ⟨ha, hmine⟩ := forall_mem_cons.1 hmine
      obtain ⟨hb, htheirs⟩ := forall_mem_cons.1 htheirs
      rw [mergeEntries.go] at h
      split at h
      · next d hd =>
        obtain ⟨hPd, hjoin⟩ := (hmerge i).ok ha hb hd
        obtain ⟨hok, herror⟩ := ih (Nat.succ.inj hl) hmine htheirs h
        refine ⟨fun _ he => ?_, fun e' he' => ?_⟩
        · obtain ⟨new, rfl, hnew, hjoins⟩ := hok _ he
          refine ⟨d :: new, by simp, forall_mem_cons.2 ⟨hPd, hnew⟩,
            .cons hjoin.left hjoins.left, .cons hjoin.right hjoins.right, ?_⟩
          rintro _ (_ | ⟨haw, hmw⟩) (_ | ⟨hbw, htw⟩)
          exact .cons (hjoin.least _ haw hbw) (hjoins.least _ hmw htw)
        · obtain ⟨hrejected, hapart⟩ := herror e' he'
          refine ⟨hrejected, ?_⟩
          rintro _ (_ | ⟨-, hmw⟩) (_ | ⟨-, htw⟩)
          exact hapart _ hmw htw
      · next e' he' =>
        cases h
        obtain ⟨hrejected, hapart⟩ := (hmerge i).error ha hb he'
        refine ⟨by simp, ?_⟩
        rintro _ ⟨⟩
        refine ⟨hrejected, ?_⟩
        rintro _ (_ | ⟨haw, -⟩) (_ | ⟨hbw, -⟩)
        exact hapart _ haw hbw

theorem leastMerge_entries (hmerge : ∀ i, LeastMerge R P (merge i)) (n : Nat) :
    LeastMerge (Forall₂ R) (fun l => l.length = n ∧ ∀ a ∈ l, P a)
      (fun mine theirs => outcome (mergeEntries merge mine theirs)) where
  ok {mine theirs r} hmine htheirs hr := by
    obtain ⟨_, hr⟩ := outcome_eq_ok.1 hr
    obtain ⟨hok, -⟩ := mergeEntries_go_least hmerge (hmine.1.trans htheirs.1.symm) hmine.2 htheirs.2
      hr
    obtain ⟨new, rfl, hnew, hjoin⟩ := hok _ rfl
    exact ⟨⟨hjoin.left.length_eq.symm.trans hmine.1, hnew⟩, hjoin⟩
  error {mine theirs e} hmine htheirs he := by
    obtain ⟨-, herror⟩ := mergeEntries_go_least hmerge (hmine.1.trans htheirs.1.symm) hmine.2
      htheirs.2 rfl
    exact herror e (outcome_eq_error.1 he)

end Entries

/-! ### Values -/

theorem Hierarchy.mergeLocal_eq {h : Hierarchy} {a b : ValueType} (i : Nat)
    (ha : a.isUninitialized = false) (hb : b.isUninitialized = false) : h.mergeLocal i a b =
      if a = b then .ok a
      else if a.isReference && b.isReference then h.joinReferences a b
      else .ok .unknown := by
  simp only [mergeLocal, ha, hb, Bool.false_eq_true, if_false]
  split
  · rfl
  · rfl

namespace ClassTable

variable {t : ClassTable} {a b d w : ValueType}

theorem IsObject.isReference (h : t.IsObject a) : a.isReference = true := by
  rcases h with rfl | ⟨s, hs, rfl⟩
  · rfl
  · exact isReference_ofFieldType hs.isReference

theorem IsObject.isUninitialized (h : t.IsObject a) : a.isUninitialized = false := by
  have href := h.isReference
  cases a <;> simp_all [ValueType.isReference, ValueType.isUninitialized]

/-- An entry of a stack may become another where paths meet: the same, or an object above it. -/
def WidensTo (t : ClassTable) (a b : ValueType) : Prop :=
  a = b ∨ t.IsObject a ∧ t.IsObject b ∧ t.hierarchy.join a b = .ok b

/-- A local variable may also become unusable. -/
def LocalWidensTo (t : ClassTable) (a b : ValueType) : Prop :=
  b = .unknown ∨ t.WidensTo a b

/-- A value that is an object of the table if it is one at all. -/
def IsValue (t : ClassTable) (a : ValueType) : Prop :=
  a.isReference = true → t.IsObject a

theorem WidensTo.size_eq (h : t.WidensTo a b) : a.size = b.size := by
  have hone : ∀ {v : ValueType}, v.isReference = true → v.size = 1 := by
    intro v hv
    cases v <;> simp_all [ValueType.isReference, ValueType.size]
  rcases h with rfl | ⟨ha, hb, -⟩
  · rfl
  · rw [hone ha.isReference, hone hb.isReference]

theorem WidensTo.eq_of_unknown (h : t.WidensTo .unknown b) : b = .unknown := by
  rcases h with rfl | ⟨ha, -⟩
  · rfl
  · cases ha.isReference

theorem WidensTo.join_eq (h : t.WidensTo a b) (ha : t.IsObject a) :
    t.IsObject b ∧ t.hierarchy.join a b = .ok b := by
  rcases h with rfl | ⟨-, hb, hjoin⟩
  · exact ⟨ha, join_self a⟩
  · exact ⟨hb, hjoin⟩

theorem WidensTo.eq_or_isObject (ha : t.WidensTo a w) (hb : t.WidensTo b w) :
    a = b ∨ t.IsObject a ∧ t.IsObject b := by
  rcases ha with rfl | ⟨ha, hw, -⟩
  · rcases hb with rfl | ⟨hb, ha, -⟩
    · exact .inl rfl
    · exact .inr ⟨ha, hb⟩
  · rcases hb with rfl | ⟨hb, -⟩
    · exact .inr ⟨ha, hw⟩
    · exact .inr ⟨ha, hb⟩

namespace IsTree

variable (ht : t.IsTree)
include ht

theorem widensTo_antisymm (hab : t.WidensTo a b) (hba : t.WidensTo b a) : a = b := by
  rcases hab with rfl | ⟨ha, hb, hab⟩
  · rfl
  rcases hba with rfl | ⟨-, -, hba⟩
  · rfl
  obtain ⟨d, -, hd, hd', -⟩ := ht.exists_join ha hb
  cases hab.symm.trans hd
  exact Except.ok.inj (hba.symm.trans hd')

theorem localWidensTo_antisymm (hab : t.LocalWidensTo a b) (hba : t.LocalWidensTo b a) : a = b := by
  rcases hab with rfl | hab
  · rcases hba with rfl | hba
    · rfl
    · exact hba.eq_of_unknown
  · rcases hba with rfl | hba
    · exact hab.eq_of_unknown.symm
    · exact ht.widensTo_antisymm hab hba

variable (hclasses : t.ExtendsClasses)
include hclasses

theorem widensTo_trans (hab : t.WidensTo a b) (hbd : t.WidensTo b d) : t.WidensTo a d := by
  rcases hab with rfl | ⟨ha, hb, hab⟩
  · exact hbd
  rcases hbd with rfl | ⟨-, hd, hbd⟩
  · exact .inr ⟨ha, hb, hab⟩
  -- All three join at `d`, the first two first and the last two first.
  obtain ⟨x, y, z, hx, hy, hz, hz'⟩ := ht.join_assoc hclasses ha hb hd
  cases hab.symm.trans hx
  cases hbd.symm.trans hy
  cases hbd.symm.trans hz
  exact .inr ⟨ha, hd, hz'⟩

theorem localWidensTo_trans (hab : t.LocalWidensTo a b) (hbd : t.LocalWidensTo b d) :
    t.LocalWidensTo a d := by
  rcases hbd with rfl | hbd
  · exact .inl rfl
  rcases hab with rfl | hab
  · exact .inl hbd.eq_of_unknown
  · exact .inr (ht.widensTo_trans hclasses hab hbd)

theorem join_join_left (ha : t.IsObject a) (hb : t.IsObject b)
    (hd : t.hierarchy.join a b = .ok d) : t.hierarchy.join a d = .ok d := by
  obtain ⟨x, y, z, hx, hy, hz, hz'⟩ := ht.join_assoc hclasses ha ha hb
  cases (join_self a).symm.trans hx
  cases hd.symm.trans hy
  cases hd.symm.trans hz
  exact hz'

theorem isJoinOf_join (ha : t.IsObject a) (hb : t.IsObject b)
    (hd : t.hierarchy.join a b = .ok d) : t.IsObject d ∧ IsJoinOf t.WidensTo a b d := by
  obtain ⟨d', hd', hjoin, hsymm, -⟩ := ht.exists_join ha hb
  cases hd.symm.trans hjoin
  refine ⟨hd', .inr ⟨ha, hd', ht.join_join_left hclasses ha hb hd⟩,
    .inr ⟨hb, hd', ht.join_join_left hclasses hb ha hsymm⟩, fun w haw hbw => ?_⟩
  obtain ⟨hw, haw⟩ := haw.join_eq ha
  obtain ⟨-, hbw⟩ := hbw.join_eq hb
  obtain ⟨x, y, z, hx, hy, hz, hz'⟩ := ht.join_assoc hclasses ha hb hw
  cases hd.symm.trans hx
  cases hbw.symm.trans hy
  cases haw.symm.trans hz'
  exact .inr ⟨hd', hw, hz⟩

theorem leastMerge_stackEntry (i : Nat) :
    LeastMerge t.WidensTo t.IsValue (t.hierarchy.mergeStackEntry i) where
  ok {a b d} ha hb hd := by
    rcases Frame.mergeStackEntry_ok hd with ⟨rfl, rfl⟩ | ⟨hra, hrb, hd⟩
    · exact ⟨ha, .inl rfl, .inl rfl, fun w haw _ => haw⟩
    · obtain ⟨hobject, hjoin⟩ := ht.isJoinOf_join hclasses (ha hra) (hb hrb) hd
      exact ⟨fun _ => hobject, hjoin⟩
  error {a b e} ha hb he := by
    have hne : a ≠ b := by
      rintro rfl
      simp [mergeStackEntry] at he
    -- Any two objects have a join, so what fails to merge are not two objects.
    have hobjects : ¬(t.IsObject a ∧ t.IsObject b) := by
      rintro ⟨ha, hb⟩
      obtain ⟨d, -, hd, -⟩ := ht.exists_join ha hb
      simp [mergeStackEntry, hne, ha.isUninitialized, hb.isUninitialized,
        ha.isReference, hb.isReference, joinReferences, hd, mapError_ok] at he
    refine ⟨?_, fun w haw hbw => (haw.eq_or_isObject hbw).elim hne hobjects⟩
    have hrefs : ¬(a.isReference && b.isReference) = true := by
      rw [Bool.and_eq_true]
      exact fun href => hobjects ⟨ha href.1, hb href.2⟩
    simp only [mergeStackEntry, if_neg hne, if_neg hrefs] at he
    repeat' split at he
    all_goals
      cases he
      exact ⟨_, rfl⟩

theorem leastMerge_local (i : Nat) :
    LeastMerge t.LocalWidensTo (fun a => t.IsValue a ∧ a.isUninitialized = false)
      (t.hierarchy.mergeLocal i) where
  ok {a b d} ha hb hd := by
    rw [mergeLocal_eq i ha.2 hb.2] at hd
    split at hd
    · next hab =>
      cases hd
      exact ⟨ha, .inr (.inl rfl), .inr (.inl hab.symm), fun w haw _ => haw⟩
    · next hne =>
      split at hd
      · next href =>
        obtain ⟨hra, hrb⟩ := Bool.and_eq_true_iff.1 href
        obtain ⟨hobject, hjoin⟩ :=
          ht.isJoinOf_join hclasses (ha.1 hra) (hb.1 hrb) (mapError_eq_ok.1 hd)
        refine ⟨⟨fun _ => hobject, hobject.isUninitialized⟩, .inr hjoin.left, .inr hjoin.right, ?_⟩
        intro w haw hbw
        rcases or_and_left.2 ⟨haw, hbw⟩ with hunknown | ⟨haw, hbw⟩
        · exact .inl hunknown
        · exact .inr (hjoin.least w haw hbw)
      · next href =>
        -- Above two values that differ and are not both objects there is only `unknown`.
        cases hd
        refine ⟨⟨by simp [IsValue, ValueType.isReference], rfl⟩, .inl rfl, .inl rfl, ?_⟩
        intro w haw hbw
        rcases or_and_left.2 ⟨haw, hbw⟩ with hunknown | ⟨haw, hbw⟩
        · exact .inl hunknown
        · rcases haw.eq_or_isObject hbw with hab | ⟨ha, hb⟩
          · exact absurd hab hne
          · exact absurd (by rw [ha.isReference, hb.isReference]; rfl) href
  error {a b e} ha hb he := by
    rw [mergeLocal_eq i ha.2 hb.2] at he
    split at he
    · cases he
    · split at he
      · next href =>
        obtain ⟨hra, hrb⟩ := Bool.and_eq_true_iff.1 href
        obtain ⟨d, -, hd, -⟩ := ht.exists_join (ha.1 hra) (hb.1 hrb)
        rw [joinReferences, hd, mapError_ok] at he
        cases he
      · cases he

end IsTree

end ClassTable

/-! ### Frames -/

section Frames

variable {t : ClassTable}

/-- A stack may become another where paths meet: entry by entry, with the same limit. -/
structure Stack.WidensTo (t : ClassTable) (s s' : Stack) : Prop where
  max : s.max = s'.max
  entries : Forall₂ t.WidensTo s.bottomUp s'.bottomUp

/-- A frame may become another where paths meet. -/
structure Frame.WidensTo (t : ClassTable) (f g : Frame) : Prop where
  stack : f.stack.WidensTo t g.stack
  locals : Forall₂ t.LocalWidensTo f.locals.toList g.locals.toList
  thisUninitialized : f.thisUninitialized = true → g.thisUninitialized = true

/-- The objects in a frame are of the table, and no local variable holds a marker. -/
structure Frame.IsMarkerFree (t : ClassTable) (f : Frame) : Prop where
  stack : ∀ a ∈ f.stack.values, t.IsValue a
  locals : ∀ a ∈ f.locals, t.IsValue a ∧ a.isUninitialized = false

/-- Merges frames one after another into the first. -/
def Frame.mergeAll (h : Hierarchy) (f : Frame) (rest : List Frame) : Except Failure Frame :=
  rest.foldlM (fun f g => outcome (merge h f g)) f

theorem Frame.WidensTo.refl (f : Frame) : f.WidensTo t f where
  stack := ⟨rfl, List.forall₂_same.2 fun _ _ => .inl rfl⟩
  locals := List.forall₂_same.2 fun _ _ => .inr (.inl rfl)
  thisUninitialized := id

theorem Stack.WidensTo.size_eq {s s' : Stack} (h : s.WidensTo t s') :
    s.size = s'.size ∧ s.slots = s'.slots := by
  have hvalues : Forall₂ t.WidensTo s.values s'.values := List.forall₂_reverse_iff.1 h.entries
  refine ⟨hvalues.length_eq, ?_⟩
  unfold slots
  generalize s.values = vs, s'.values = ws at hvalues
  induction hvalues with
  | nil => rfl
  | cons hvw _ ih => rw [foldr_cons, foldr_cons, hvw.size_eq, ih]

theorem Frame.forall₂_antisymm {R : ValueType → ValueType → Prop} {l l' : List ValueType}
    (h : Forall₂ R l l') (h' : Forall₂ R l' l)
    (hR : ∀ a b, R a b → R b a → a = b) : l = l' := by
  induction h with
  | nil => rfl
  | cons hab _ ih =>
    cases h' with
    | cons hba h' => rw [hR _ _ hab hba, ih h']

theorem Frame.widensTo_antisymm (ht : t.IsTree) {f g : Frame} (hfg : f.WidensTo t g)
    (hgf : g.WidensTo t f) : f = g := by
  have hstack := forall₂_antisymm hfg.stack.entries hgf.stack.entries fun _ _ =>
    ht.widensTo_antisymm
  have hlocals := forall₂_antisymm hfg.locals hgf.locals fun _ _ => ht.localWidensTo_antisymm
  have hmax := hfg.stack.max
  have hflag := Bool.eq_iff_iff.2 ⟨hfg.thisUninitialized, hgf.thisUninitialized⟩
  obtain ⟨⟨values, max⟩, ⟨locals⟩, flag⟩ := f
  obtain ⟨⟨values', max'⟩, ⟨locals'⟩, flag'⟩ := g
  simp_all [Stack.bottomUp]

section Tree

variable (ht : t.IsTree) (hclasses : t.ExtendsClasses)
include ht hclasses

theorem Frame.widensTo_trans {f g m : Frame} (hfg : f.WidensTo t g) (hgm : g.WidensTo t m) :
    f.WidensTo t m where
  stack := ⟨hfg.stack.max.trans hgm.stack.max, forall₂_trans hfg.stack.entries hgm.stack.entries
    fun _ _ _ => ht.widensTo_trans hclasses⟩
  locals := forall₂_trans hfg.locals hgm.locals fun _ _ _ => ht.localWidensTo_trans hclasses
  thisUninitialized := hgm.thisUninitialized ∘ hfg.thisUninitialized

theorem Stack.leastMerge (max : Int) :
    LeastMerge (WidensTo t) (fun s => s.max = max ∧ ∀ a ∈ s.values, t.IsValue a)
      (fun s s' => outcome (Frame.mergeStack t.hierarchy s s')) := by
  have hentries := leastMerge_entries (ht.leastMerge_stackEntry hclasses)
  have hvalues : ∀ {s : Stack}, (∀ a ∈ s.values, t.IsValue a) →
      s.bottomUp.length = s.size ∧ ∀ a ∈ s.bottomUp, t.IsValue a := fun hs =>
    ⟨length_reverse, fun a ha => hs a (mem_reverse.1 ha)⟩
  refine ⟨fun {s s' stack} hs hs' hstack => ?_, fun {s s' e} hs hs' he => ?_⟩
  · obtain ⟨_, hstack⟩ := outcome_eq_ok.1 hstack
    obtain ⟨hsize, -, hmax, hmerged⟩ := Frame.mergeStack_eq_ok.1 hstack
    obtain ⟨⟨-, hstack⟩, hjoin⟩ := (hentries s.size).ok (hvalues hs.2) (hsize ▸ hvalues hs'.2)
      (outcome_eq_ok.2 ⟨_, hmerged⟩)
    have hmax' : s'.max = stack.max := by rw [hmax, hs.1, hs'.1]
    exact ⟨⟨hmax.trans hs.1, fun a ha => hstack a (mem_reverse.2 ha)⟩,
      ⟨hmax.symm, hjoin.left⟩, ⟨hmax', hjoin.right⟩,
      fun w hw hw' => ⟨hmax.trans hw.max, hjoin.least _ hw.entries hw'.entries⟩⟩
  · have he := outcome_eq_error.1 he
    unfold Frame.mergeStack at he
    split at he
    · next hsizes =>
      -- A stack above both would have the size of either.
      cases he
      refine ⟨⟨_, rfl⟩, fun w hw hw' => ?_⟩
      rw [hw.size_eq.1, hw.size_eq.2, hw'.size_eq.1, hw'.size_eq.2] at hsizes
      simp at hsizes
    · next hsizes =>
      simp only [ne_eq, not_or, Decidable.not_not] at hsizes
      obtain ⟨hrejected, hapart⟩ := (hentries s.size).error (hvalues hs.2)
        (hsizes.1 ▸ hvalues hs'.2) (outcome_eq_error.2 he)
      exact ⟨hrejected, fun w hw hw' => hapart _ hw.entries hw'.entries⟩

theorem Frame.leastMerge_locals (n : Nat) :
    LeastMerge (fun l l' : Array ValueType => Forall₂ t.LocalWidensTo l.toList l'.toList)
      (fun l => l.size = n ∧ ∀ a ∈ l, t.IsValue a ∧ a.isUninitialized = false)
      (fun l l' => outcome (mergeLocals t.hierarchy l l')) := by
  have hentries := leastMerge_entries (ht.leastMerge_local hclasses) n
  have hvalues : ∀ {l : Array ValueType},
      l.size = n ∧ (∀ a ∈ l, t.IsValue a ∧ a.isUninitialized = false) ↔
        l.toList.length = n ∧ ∀ a ∈ l.toList, t.IsValue a ∧ a.isUninitialized = false := by
    simp
  refine ⟨fun {l l' locals} hl hl' hlocals => ?_, fun {l l' e} hl hl' he => ?_⟩
  · obtain ⟨_, hlocals⟩ := outcome_eq_ok.1 hlocals
    obtain ⟨hlocals, hjoin⟩ := hentries.ok (hvalues.1 hl) (hvalues.1 hl')
      (outcome_eq_ok.2 ⟨_, (mergeLocals_eq_ok.1 hlocals).2⟩)
    exact ⟨hvalues.2 hlocals, hjoin.left, hjoin.right, fun w => hjoin.least w.toList⟩
  · have he := outcome_eq_error.1 he
    rw [mergeLocals, if_neg (by simp [hl.1, hl'.1])] at he
    obtain ⟨hrejected, hapart⟩ := hentries.error (hvalues.1 hl) (hvalues.1 hl')
      (outcome_eq_error.2 he)
    exact ⟨hrejected, fun w => hapart w.toList⟩

/-- Frames with the same limits and without markers in their local variables merge to the least
frame above both. -/
theorem Frame.leastMerge (max : Int) (n : Nat) :
    LeastMerge (WidensTo t) (fun f => f.IsMarkerFree t ∧ f.stack.max = max ∧ f.locals.size = n)
      (fun f g => outcome (merge t.hierarchy f g)) := by
  have hstacks := Stack.leastMerge ht hclasses max
  have hlocals := Frame.leastMerge_locals ht hclasses n
  refine ⟨fun {f g m} hf hg hm => ?_, fun {f g e} hf hg he => ?_⟩
  · obtain ⟨_, hm⟩ := outcome_eq_ok.1 hm
    obtain ⟨_, _, hstack, hlocal, hflag, -⟩ := merge_eq_ok_iff.1 hm
    obtain ⟨⟨hmax, hvalues⟩, hstack⟩ :=
      hstacks.ok ⟨hf.2.1, hf.1.stack⟩ ⟨hg.2.1, hg.1.stack⟩ (outcome_eq_ok.2 ⟨_, hstack⟩)
    obtain ⟨⟨hsize, hvalues'⟩, hlocal⟩ :=
      hlocals.ok ⟨hf.2.2, hf.1.locals⟩ ⟨hg.2.2, hg.1.locals⟩ (outcome_eq_ok.2 ⟨_, hlocal⟩)
    refine ⟨⟨⟨hvalues, hvalues'⟩, hmax, hsize⟩, ⟨hstack.left, hlocal.left, ?_⟩,
      ⟨hstack.right, hlocal.right, ?_⟩, fun w hfw hgw => ⟨hstack.least _ hfw.stack hgw.stack,
        hlocal.least _ hfw.locals hgw.locals, ?_⟩⟩
    · simp +contextual [hflag]
    · simp +contextual [hflag]
    · rw [hflag, Bool.or_eq_true]
      exact fun hor => hor.elim hfw.thisUninitialized hgw.thisUninitialized
  · have he := outcome_eq_error.1 he
    unfold merge at he
    split at he
    · next hstack =>
      cases he
      obtain ⟨hrejected, hapart⟩ := hstacks.error ⟨hf.2.1, hf.1.stack⟩ ⟨hg.2.1, hg.1.stack⟩
        (outcome_eq_error.2 (congrArg Prod.snd hstack))
      exact ⟨hrejected, fun w hfw hgw => hapart _ hfw.stack hgw.stack⟩
    · split at he
      · next hlocal =>
        cases he
        obtain ⟨hrejected, hapart⟩ := hlocals.error ⟨hf.2.2, hf.1.locals⟩ ⟨hg.2.2, hg.1.locals⟩
          (outcome_eq_error.2 (congrArg Prod.snd hlocal))
        exact ⟨hrejected, fun w hfw hgw => hapart _ hfw.locals hgw.locals⟩
      · cases he

end Tree

end Frames

/-- Over a table that is a tree in which no class extends an interface, frames with the same limits
and without markers in their local variables merge in every order to the same frame, or are rejected
in every order. -/
theorem mergeAll_perm (t : ClassTable) (ht : t.IsTree) (hclasses : t.ExtendsClasses)
    (f : Frame) (rest : List Frame) (hfree : ∀ g ∈ f :: rest, g.IsMarkerFree t)
    (hlimits : ∀ g ∈ f :: rest, g.stack.max = f.stack.max ∧ g.locals.size = f.locals.size) :
    (∃ m, ∀ f' rest', (f' :: rest').Perm (f :: rest) →
      Frame.mergeAll t.hierarchy f' rest' = .ok m) ∨
    ∀ f' rest', (f' :: rest').Perm (f :: rest) →
      ∃ r, Frame.mergeAll t.hierarchy f' rest' = .error (.rejected r) := by
  -- What is above all frames of a list does not depend on their order.
  have hfold : ∀ {f' rest'}, (f' :: rest').Perm (f :: rest) → _ := fun {f' rest'} hperm =>
    (Frame.leastMerge ht hclasses f.stack.max f.locals.size).foldlM Frame.WidensTo.refl
      (fun _ _ _ => Frame.widensTo_trans ht hclasses) (a := f') (l := rest')
      ⟨hfree f' (hperm.subset (by simp)), hlimits f' (hperm.subset (by simp))⟩
      fun g hg => ⟨hfree g (hperm.subset (by simp [hg])), hlimits g (hperm.subset (by simp [hg]))⟩
  cases hbase : Frame.mergeAll t.hierarchy f rest with
  | ok m =>
    obtain ⟨hupper, hleast⟩ := (hfold (.refl _)).1 m hbase
    refine .inl ⟨m, fun f' rest' hperm => ?_⟩
    cases hother : Frame.mergeAll t.hierarchy f' rest' with
    | ok m' =>
      obtain ⟨hupper', hleast'⟩ := (hfold hperm).1 m' hother
      rw [Frame.widensTo_antisymm ht (hleast m' fun g hg => hupper' g (hperm.symm.subset hg))
        (hleast' m fun g hg => hupper g (hperm.subset hg))]
    | error e =>
      exact absurd (fun g hg => hupper g (hperm.subset hg)) (((hfold hperm).2 e hother).2 m)
  | error e =>
    obtain ⟨-, hnone⟩ := (hfold (.refl _)).2 e hbase
    refine .inr fun f' rest' hperm => ?_
    cases hother : Frame.mergeAll t.hierarchy f' rest' with
    | ok m' =>
      obtain ⟨hupper', -⟩ := (hfold hperm).1 m' hother
      exact absurd (fun g hg => hupper' g (hperm.symm.subset hg)) (hnone m')
    | error e' =>
      obtain ⟨⟨r, rfl⟩, -⟩ := (hfold hperm).2 e' hother
      exact ⟨r, rfl⟩

/-- A frame with a marker under the top of its stack. -/
def petFrame (top first second : ValueType) (thisUninitialized : Bool) : Frame where
  stack := { values := [top, .uninitialized "app/Dog" 0], max := 2 }
  locals := #[first, second]
  thisUninitialized := thisUninitialized

/-- A dog, a cat and null merge to a pet, a number and a return address to nothing usable. -/
theorem mergeAll_perm_petTable : petTable.IsTree ∧ petTable.ExtendsClasses ∧
    ∀ f rest, (f :: rest).Perm
      [petFrame (.reference "app/Dog") (.reference "app/Dog") .int false,
        petFrame (.reference "app/Cat") .null (.returnAddress 3) true,
        petFrame .null (.reference "app/Cat") .int false] →
      Frame.mergeAll petTable.hierarchy f rest =
        .ok (petFrame (.reference "app/Pet") (.reference "app/Pet") .unknown true) := by
  have hclass : ∀ {name}, petTable.has name = true → petTable.IsValue (.reference name) :=
    fun {name} hname _ => .inr ⟨⟨.object name, 0⟩, ClassTable.refers_class hname, rfl⟩
  have hdog : petTable.IsValue (.reference "app/Dog") := hclass (by decide)
  have hcat : petTable.IsValue (.reference "app/Cat") := hclass (by decide)
  have hnull : petTable.IsValue .null := fun _ => .inl rfl
  have hother : ∀ {a : ValueType}, a.isReference = false → petTable.IsValue a := by
    intro a ha href
    cases ha.symm.trans href
  have hfree : ∀ g ∈ [petFrame (.reference "app/Dog") (.reference "app/Dog") .int false,
      petFrame (.reference "app/Cat") .null (.returnAddress 3) true,
      petFrame .null (.reference "app/Cat") .int false], g.IsMarkerFree petTable := by
    simp only [forall_mem_cons]
    refine ⟨⟨?_, ?_⟩, ⟨?_, ?_⟩, ⟨?_, ?_⟩, by simp⟩
    all_goals
      simp [petFrame, hdog, hcat, hnull, ValueType.isUninitialized]
      exact hother rfl
  have hmerged : (Frame.mergeAll petTable.hierarchy
      (petFrame (.reference "app/Dog") (.reference "app/Dog") .int false)
      [petFrame (.reference "app/Cat") .null (.returnAddress 3) true,
        petFrame .null (.reference "app/Cat") .int false]).toOption =
      some (petFrame (.reference "app/Pet") (.reference "app/Pet") .unknown true) := by
    decide +kernel
  rw [toOption_eq_some] at hmerged
  refine ⟨isTree_petTable, extendsClasses_petTable, ?_⟩
  rcases mergeAll_perm petTable isTree_petTable extendsClasses_petTable _ _ hfree
      (by simp [petFrame]) with
    ⟨m, hm⟩ | hrejected
  · cases hmerged.symm.trans (hm _ _ (.refl _))
    exact hm
  · obtain ⟨r, hr⟩ := hrejected _ _ (.refl _)
    cases hmerged.symm.trans hr

end Bytecode
