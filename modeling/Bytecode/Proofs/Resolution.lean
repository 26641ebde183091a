import Bytecode.Proofs.SearchLoops

/-!
Which questions about classes have an answer.

Every question ends on every table, also where classes are missing and where superclasses or
interfaces go round in a circle, but for the search for a method: above a circle of superclasses
that does not declare it, that search goes on without end.

Main statement: `resolution_ends`, what each question ends with, and which searches do not.
-/
namespace Bytecode.ClassTable

open List

variable {t : ClassTable} {name desc owner a b : String} {cls : Class}

/-! ### Where a search comes to -/

theorem scanInterfaces_some {seen names fresh : List String} {m : Method}
    (h : t.scanInterfaces name desc seen names = .ok (some (m, cls), fresh)) :
    ∃ i ∈ names, t.find? i = some cls ∧ cls.method? name desc = some m := by
  induction names generalizing seen fresh with
  | nil => cases h
  | cons i names ih =>
    rw [scanInterfaces] at h
    split at h
    · obtain ⟨j, hj, hfound⟩ := ih h
      exact ⟨j, mem_cons_of_mem _ hj, hfound⟩
    · obtain ⟨c, hc, hrest⟩ := bind_eq_ok.1 h
      split at hrest
      · next m' hm' =>
        cases hrest
        exact ⟨i, mem_cons_self, lookup_eq_ok.1 hc, (Option.filter_eq_some_iff.1 hm').1⟩
      · obtain ⟨⟨found, fresh'⟩, hscan, heq⟩ := bind_eq_ok.1 hrest
        cases heq
        obtain ⟨j, hj, hfound⟩ := ih hscan
        exact ⟨j, mem_cons_of_mem _ hj, hfound⟩

section Upward

variable {P : String → Prop} (hup : ∀ a b, P a → t.Inherits a b → P b)
include hup

/-- A walk for a method comes only to superclasses: one is missing, one declares the method, or they
go round. -/
theorem methodAbove_visits (name desc : String) {seen : List String} (ha : P a)
    (hfind : t.find? a = some cls) :
    (∀ e, t.methodAbove name desc cls seen = .error e →
      t.Misses P e ∨ ∃ last, e = .endless last) ∧
    ∀ m c, t.methodAbove name desc cls seen = .ok (some (m, c)) →
      ∃ n, P n ∧ t.find? n = some c ∧ c.method? name desc = some m := by
  fun_induction t.methodAbove name desc cls seen generalizing a with
  | case1 cls _ m hm =>
    refine ⟨by simp, fun m' c h => ?_⟩
    cases h
    exact ⟨a, ha, hfind, hm⟩
  | case2 => simp
  | case3 cls seen _ super => simp
  | case4 cls seen _ super hsuper _ hnone =>
    refine ⟨fun e he => ?_, by simp⟩
    cases he
    exact .inl ⟨super, rfl, hup a super ha (Extends.inherits ⟨cls, hfind, hsuper⟩), hnone⟩
  | case5 cls seen _ super hsuper _ above habove _ ih =>
    exact ih (hup a super ha (Extends.inherits ⟨cls, hfind, hsuper⟩)) habove

theorem searchInterfaces_visits (name desc : String) {queue done : List String}
    (seen : List String) (hqueue : ∀ n ∈ queue, P n) (hdone : ∀ n ∈ done, P n) :
    (∀ e, t.searchInterfaces name desc queue seen done = .error e →
      t.Misses P e ∨ ∃ last, e = .endless last ∧ P last ∧ t.isCircular last = true) ∧
    ∀ m c, t.searchInterfaces name desc queue seen done = .ok (some (m, c)) →
      ∃ n, P n ∧ t.find? n = some c ∧ c.method? name desc = some m := by
  fun_induction t.searchInterfaces name desc queue seen done with
  | case1 seen done circle hcircle =>
    refine ⟨fun e he => ?_, by simp⟩
    cases he
    exact .inr ⟨circle, rfl, hdone circle (mem_of_find?_eq_some hcircle), find?_some hcircle⟩
  | case2 => simp
  | case3 seen done n queue _ ih =>
    exact ih (fun m hm => hqueue m (mem_cons_of_mem _ hm)) hdone
  | case4 seen done n queue _ hnone =>
    refine ⟨fun e he => ?_, by simp⟩
    cases he
    exact .inl ⟨n, rfl, hqueue n mem_cons_self, hnone⟩
  | case5 seen done n queue _ cls hfind _ e hscan =>
    refine ⟨fun e' he => ?_, by simp⟩
    cases he
    refine .inl (scanInterfaces_fails name desc seen (fun i hi => ?_) e hscan)
    exact hup n i (hqueue n mem_cons_self) ⟨cls, hfind, mem_append_left _ hi⟩
  | case6 seen done n queue _ cls hfind _ found fresh hscan =>
    refine ⟨by simp, fun m c h => ?_⟩
    cases h
    obtain ⟨i, hi, hfound⟩ := scanInterfaces_some hscan
    exact ⟨i, hup n i (hqueue n mem_cons_self) ⟨cls, hfind, mem_append_left _ hi⟩, hfound⟩
  | case7 seen done n queue _ cls hfind _ fresh hscan _ ih =>
    have hn := hqueue n mem_cons_self
    refine ih (fun m hm => ?_) fun m hm => ?_
    · rcases mem_append.1 hm with hm | hm
      · exact hqueue m (mem_cons_of_mem _ hm)
      · have hi := ((scanInterfaces_none hscan).1 m hm).1
        exact hup n m hn ⟨cls, hfind, mem_append_left _ hi⟩
    · rcases mem_cons.1 hm with rfl | hm
      · exact hn
      · exact hdone m hm
  | case8 seen done n queue _ cls hfind _ fresh _ super hsuper e hlookup =>
    refine ⟨fun e' he => ?_, by simp⟩
    cases he
    have hsuper' := hup n super (hqueue n mem_cons_self) (Extends.inherits ⟨cls, hfind, hsuper⟩)
    exact .inl (lookup_fails hsuper' e hlookup)
  | case9 seen done n queue _ cls hfind _ fresh hscan super hsuper above _ ih =>
    have hn := hqueue n mem_cons_self
    refine ih (fun m hm => ?_) fun m hm => ?_
    · rcases mem_append.1 hm with hm | hm
      · rcases mem_append.1 hm with hm | hm
        · exact hqueue m (mem_cons_of_mem _ hm)
        · have hi := ((scanInterfaces_none hscan).1 m hm).1
          exact hup n m hn ⟨cls, hfind, mem_append_left _ hi⟩
      · rw [mem_singleton.1 hm]
        exact hup n super hn (Extends.inherits ⟨cls, hfind, hsuper⟩)
    · rcases mem_cons.1 hm with rfl | hm
      · exact hn
      · exact hdone m hm

end Upward

/-- What is above the classes that are done is done as well, or waits in the queue. -/
structure Covers (t : ClassTable) (queue seen done : List String) : Prop where
  seen_mem : ∀ i ∈ seen, i ∈ done ++ queue
  closed : ∀ d ∈ done, ∃ c, t.find? d = some c ∧ (∀ i ∈ c.interfaces, i ∈ seen) ∧
    ∀ super ∈ c.super, super ∈ done ++ queue

theorem Covers.next {current : String} {queue seen done fresh : List String}
    (h : t.Covers (current :: queue) seen done) (hfind : t.find? current = some cls)
    (hscan : t.scanInterfaces name desc seen cls.interfaces = .ok (none, fresh)) :
    t.Covers (queue ++ fresh ++ cls.super.toList) (fresh ++ seen) (current :: done) := by
  have hmem : ∀ n ∈ done ++ current :: queue,
      n ∈ current :: done ++ (queue ++ fresh ++ cls.super.toList) := by
    intro n hn
    simp only [mem_append, mem_cons] at hn ⊢
    tauto
  refine ⟨fun i hi => ?_, fun d hd => ?_⟩
  · rcases mem_append.1 hi with hi | hi
    · simp [hi]
    · exact hmem i (h.seen_mem i hi)
  · rcases mem_cons.1 hd with rfl | hd
    · refine ⟨cls, hfind, (scanInterfaces_none hscan).2, fun super hsuper => ?_⟩
      simp [show super ∈ cls.super.toList by simpa using hsuper]
    · obtain ⟨c, hc, hinterfaces, hsuper⟩ := h.closed d hd
      exact ⟨c, hc, fun i hi => mem_append_right _ (hinterfaces i hi),
        fun super hs => hmem super (hsuper super hs)⟩

/-- A search that ends without a method has been to all that is above the queue, and no class there
goes round. -/
theorem Covers.exists_closed {queue seen done : List String} (hcovers : t.Covers queue seen done)
    (h : t.searchInterfaces name desc queue seen done = .ok none) :
    ∃ all : List String, (∀ n ∈ done ++ queue, n ∈ all) ∧ (∀ n ∈ all, t.isCircular n = false) ∧
      ∀ a ∈ all, t.has a = true ∧ ∀ b, t.Inherits a b → b ∈ all := by
  fun_induction t.searchInterfaces name desc queue seen done with
  | case1 => cases h
  | case2 seen done hnone =>
    refine ⟨done, by simp, fun n hn => by simpa using List.find?_eq_none.1 hnone n hn,
      fun a ha => ?_⟩
    obtain ⟨c, hfind, hinterfaces, hsuper⟩ := hcovers.closed a ha
    refine ⟨has_iff.2 ⟨c, hfind⟩, ?_⟩
    rintro b ⟨c', hfind', hb⟩
    cases hfind.symm.trans hfind'
    rcases mem_append.1 hb with hb | hb
    · simpa using hcovers.seen_mem b (hinterfaces b hb)
    · simpa using hsuper b (by simpa using hb)
  | case3 seen done n queue hdone ih =>
    have hmem : n ∈ done := by simpa using hdone
    have hdrop : ∀ m, m ∈ done ++ n :: queue ↔ m ∈ done ++ queue := by
      intro m
      simp only [mem_append, mem_cons]
      constructor
      · rintro (h | rfl | h)
        · exact .inl h
        · exact .inl hmem
        · exact .inr h
      · rintro (h | h)
        · exact .inl h
        · exact .inr (.inr h)
    obtain ⟨hseen, hclosed⟩ := hcovers
    simp only [hdrop] at hclosed hseen ⊢
    exact ih ⟨hseen, hclosed⟩ h
  | case4 => cases h
  | case5 => cases h
  | case6 => cases h
  | case7 seen done n queue _ cls hfind _ fresh hscan hsuper ih =>
    have hnext := hcovers.next hfind hscan
    rw [hsuper, Option.toList_none, append_nil] at hnext
    obtain ⟨all, hall, hrest⟩ := ih hnext h
    refine ⟨all, fun m hm => hall m ?_, hrest⟩
    simp only [mem_append, mem_cons] at hm ⊢
    tauto
  | case8 => cases h
  | case9 seen done n queue _ cls hfind _ fresh hscan super hsuper above _ ih =>
    have hnext := hcovers.next hfind hscan
    rw [hsuper, Option.toList_some] at hnext
    obtain ⟨all, hall, hrest⟩ := ih hnext h
    refine ⟨all, fun m hm => hall m ?_, hrest⟩
    simp only [mem_append, mem_cons] at hm ⊢
    tauto

/-! ### Circles above a class -/

/-- Above a class there is a circle of superclasses. -/
def RoundAbove (t : ClassTable) (owner : String) : Prop :=
  ∃ above, Relation.ReflTransGen t.Inherits owner above ∧ Relation.TransGen t.Extends above above

theorem RoundAbove.of_leadsRound (ha : Relation.ReflTransGen t.Inherits owner a)
    (h : LeadsRound t.Extends a) : t.RoundAbove owner := by
  obtain ⟨d, had, hdd⟩ := h
  exact ⟨d, ha.trans (Relation.ReflTransGen.mono (fun _ _ => Extends.inherits) _ _ had), hdd⟩

/-- A class whose superclasses can be told is in no circle of them. -/
theorem not_transGen_of_superclasses {above : List String} (h : t.superclasses a = .ok above) :
    ¬Relation.TransGen t.Extends a a := by
  intro hround
  obtain ⟨cls, hfind, hwalk⟩ := superclasses_eq_ok.1 h
  -- All that is above the class is among its superclasses, but the class is not.
  have hmem : ∀ b, Relation.TransGen t.Extends a b → b ∈ above := by
    intro b hab
    induction hab with
    | single hab =>
      obtain ⟨cls', hfind', hsuper⟩ := hab
      cases hfind.symm.trans hfind'
      rw [hsuper] at hwalk
      cases hwalk
      exact mem_cons_self
    | tail _ hbd ih =>
      obtain ⟨cls', hfind', hsuper⟩ := hbd
      obtain ⟨cls'', seen, before, rest, hfind'', hrest, rfl⟩ := hwalk.of_mem ih
      cases hfind'.symm.trans hfind''
      rw [hsuper] at hrest
      cases hrest
      simp
  exact (superclasses_iff_climbs.1 h).not_mem (hmem a hround)

/-- A search that ends without a method finds no circle above a class. -/
theorem not_roundAbove_of_searchInterfaces
    (h : t.searchInterfaces name desc [owner] [] [] = .ok none) : ¬t.RoundAbove owner := by
  have hcovers : t.Covers [owner] [] [] := ⟨by simp, by simp⟩
  obtain ⟨all, howner, hcircular, hclosed⟩ := hcovers.exists_closed h
  rintro ⟨above, habove, hround⟩
  have hall : ∀ b, Relation.ReflTransGen t.Inherits owner b → b ∈ all := by
    intro b hb
    induction hb with
    | refl => exact howner owner (by simp)
    | tail _ hstep ih => exact (hclosed _ ih).2 _ hstep
  obtain ⟨supers, hsupers⟩ := exists_superclasses_of_closed
    (fun a ha => ⟨(hclosed a ha).1, fun b hab => (hclosed a ha).2 b hab.inherits⟩)
    (hall above habove) (hcircular above (hall above habove))
  exact not_transGen_of_superclasses hsupers hround

/-! ### The search for a method -/

/-- The search for a class method, each of its loops cut off after a number of rounds. -/
def resolveMethodWithin (t : ClassTable) (owner name desc : String) (n : Nat) :
    Option (Except HierarchyError (Method × Class)) :=
  proceed (some (t.lookup owner)) fun c =>
  proceed (t.methodWithin name desc n c) fun
    | some found => some (.ok found)
    | none =>
      proceed (t.interfacesWithin name desc n [c] []) fun
        | some found => some (.ok found)
        | none => some (.error (.methodNotFound owner name desc))

/-- The search for an interface method, its loop cut off after a number of rounds. -/
def resolveInterfaceMethodWithin (t : ClassTable) (owner name desc : String) (n : Nat) :
    Option (Except HierarchyError (Method × Class)) :=
  proceed (some (t.lookup owner)) fun c =>
    match c.method? name desc with
    | some m => some (.ok (m, c))
    | none =>
      proceed (some (t.lookup objectClass)) fun object =>
        match (object.method? name desc).filter fun m =>
            m.access.has .publicBit && !m.isStatic with
        | some m => some (.ok (m, object))
        | none =>
          proceed (t.interfacesWithin name desc n [c] []) fun
            | some found => some (.ok found)
            | none => some (.error (.interfaceMethodNotFound owner name desc))

theorem mirrors_start (hfind : t.find? owner = some cls) : t.Mirrors [cls] [owner] [] [] where
  registered c hc := by
    rw [mem_singleton.1 hc, (mem_of_find? hfind).2]
    exact hfind
  same := by
    rw [map_singleton, (mem_of_find? hfind).2]
  closed d hd := by cases hd
  goesRound h := by
    obtain ⟨d, hd, -⟩ := h
    cases hd

theorem hasOutcome_lookup (t : ClassTable) (n : String) :
    HasOutcome (fun _ => some (t.lookup n)) (t.lookup n) := by
  refine .of_answer ?_
  rintro ⟨last, hlast⟩
  have hmisses := lookup_fails (P := (· = n)) rfl _ hlast
  exact hmisses.not_endless (α := Class) ⟨last, rfl⟩

theorem hasOutcome_resolveMethod (t : ClassTable) (owner name desc : String) :
    HasOutcome (t.resolveMethodWithin owner name desc) (t.resolveMethod owner name desc) := by
  refine (hasOutcome_lookup t owner).proceed fun c hc => ?_
  have hfind := lookup_eq_ok.1 hc
  refine (hasOutcome_methodAbove hfind fun s hs => mem_singleton.1 hs ▸ .refl).proceed
    fun found _ => ?_
  cases found with
  | some found => exact .of_answer (not_endless_ok _)
  | none =>
    refine (hasOutcome_searchInterfaces (mirrors_start hfind)).proceed fun found _ => ?_
    cases found with
    | some found => exact .of_answer (not_endless_ok _)
    | none => exact .of_answer (by rintro ⟨last, hlast⟩; cases hlast)

theorem hasOutcome_resolveInterfaceMethod (t : ClassTable) (owner name desc : String) :
    HasOutcome (t.resolveInterfaceMethodWithin owner name desc)
      (t.resolveInterfaceMethod owner name desc) := by
  refine (hasOutcome_lookup t owner).proceed fun c hc => ?_
  have hfind := lookup_eq_ok.1 hc
  cases c.method? name desc with
  | some m => exact .of_answer (not_endless_ok _)
  | none =>
    refine (hasOutcome_lookup t objectClass).proceed fun object _ => ?_
    cases hinherited : (object.method? name desc).filter fun m =>
        m.access.has .publicBit && !m.isStatic with
    | some m => exact .of_answer (not_endless_ok _)
    | none =>
      refine (hasOutcome_searchInterfaces (mirrors_start hfind)).proceed fun found _ => ?_
      cases found with
      | some found => exact .of_answer (not_endless_ok _)
      | none => exact .of_answer (by rintro ⟨last, hlast⟩; cases hlast)

/-! ### What a search for a method ends with -/

theorem roundAbove_of_methodAbove {last : String} (hfind : t.find? owner = some cls)
    (h : t.methodAbove name desc cls [owner] = .error (.endless last)) : t.RoundAbove owner := by
  obtain ⟨d, howner, hround⟩ := leadsRound_of_methodAbove hfind
    (fun s hs => mem_singleton.1 hs ▸ .refl) h
  exact .of_leadsRound .refl ⟨d, Relation.ReflTransGen.mono (fun _ _ => Passes.extends) _ _ howner,
    Relation.TransGen.mono (fun _ _ => Passes.extends) _ _ hround⟩

/-- How a search above a class may fail: a class above it is missing, or the search goes round
without end. -/
def Strays (t : ClassTable) (owner : String) (e : HierarchyError) : Prop :=
  t.Misses (Relation.ReflTransGen t.Inherits owner) e ∨
    (∃ last, e = .endless last) ∧ t.RoundAbove owner

theorem methodAbove_fails (name desc : String) (hfind : t.find? owner = some cls) :
    FailsOnly (t.Strays owner) (t.methodAbove name desc cls [owner]) := by
  intro e he
  rcases (methodAbove_visits (fun a b ha hab => ha.tail hab) name desc
    (Relation.ReflTransGen.refl (r := t.Inherits)) hfind).1 e he with hmisses | ⟨last, rfl⟩
  · exact .inl hmisses
  · exact .inr ⟨⟨last, rfl⟩, roundAbove_of_methodAbove hfind he⟩

theorem searchInterfaces_start (t : ClassTable) (owner name desc : String) :
    FailsOnly (t.Strays owner) (t.searchInterfaces name desc [owner] [] []) ∧
    ∀ m c, t.searchInterfaces name desc [owner] [] [] = .ok (some (m, c)) →
      ∃ n, Relation.ReflTransGen t.Inherits owner n ∧ t.find? n = some c ∧
        c.method? name desc = some m := by
  obtain ⟨hfails, hfinds⟩ := searchInterfaces_visits (P := Relation.ReflTransGen t.Inherits owner)
    (fun a b ha hab => ha.tail hab) name desc []
    (fun n (hn : n ∈ [owner]) => mem_singleton.1 hn ▸ .refl) fun n (hn : n ∈ []) => by cases hn
  refine ⟨fun e he => ?_, hfinds⟩
  rcases hfails e he with hmisses | ⟨last, rfl, hlast, hcircular⟩
  · exact .inl hmisses
  · exact .inr ⟨⟨last, rfl⟩, .of_leadsRound hlast (leadsRound_of_isCircular hcircular)⟩

theorem resolveMethod_fails (t : ClassTable) (owner name desc : String) :
    FailsOnly (fun e => e = .methodNotFound owner name desc ∨ t.Strays owner e)
      (t.resolveMethod owner name desc) := by
  refine .bind (fun e he => .inr (.inl (lookup_fails .refl e he))) fun c hc => ?_
  refine .bind (fun e he => .inr (methodAbove_fails name desc (lookup_eq_ok.1 hc) e he))
    fun found _ => ?_
  cases found with
  | some found => exact .pure _
  | none =>
    refine .bind (fun e he => .inr ((t.searchInterfaces_start owner name desc).1 e he))
      fun found _ => ?_
    cases found with
    | some found => exact .pure _
    | none => exact .error (.inl rfl)

theorem resolveInterfaceMethod_fails (t : ClassTable) (owner name desc : String) :
    FailsOnly (fun e => e = .interfaceMethodNotFound owner name desc ∨
      t.Misses (· = objectClass) e ∨ t.Strays owner e)
      (t.resolveInterfaceMethod owner name desc) := by
  refine .bind (fun e he => .inr (.inr (.inl (lookup_fails .refl e he)))) fun c hc => ?_
  dsimp only
  cases c.method? name desc with
  | some m => exact .pure _
  | none =>
    refine .bind (fun e he => .inr (.inl (lookup_fails (P := (· = objectClass)) rfl e he)))
      fun object _ => ?_
    cases (object.method? name desc).filter fun m => m.access.has .publicBit && !m.isStatic with
    | some m => exact .pure _
    | none =>
      refine .bind (fun e he => .inr (.inr ((t.searchInterfaces_start owner name desc).1 e he)))
        fun found _ => ?_
      cases found with
      | some found => exact .pure _
      | none => exact .error (.inl rfl)

/-! ### Methods that nothing declares -/

/-- No class or interface above a class declares a method, the class itself included. -/
def Undeclared (t : ClassTable) (owner name desc : String) : Prop :=
  ∀ above cls, Relation.ReflTransGen t.Inherits owner above → t.find? above = some cls →
    cls.method? name desc = none

/-- Where nothing is missing and nothing declares the method, a search through interfaces ends with
nothing or does not end. -/
theorem Undeclared.searchInterfaces (h : t.Undeclared owner name desc) (hholds : t.Holds owner) :
    t.searchInterfaces name desc [owner] [] [] = .ok none ∨
      Endless (t.searchInterfaces name desc [owner] [] []) := by
  obtain ⟨hfails, hfinds⟩ := t.searchInterfaces_start owner name desc
  cases hsearch : t.searchInterfaces name desc [owner] [] [] with
  | error e =>
    rcases hfails e hsearch with hmisses | ⟨⟨last, rfl⟩, -⟩
    · exact absurd hmisses hholds.not_misses
    · exact .inr ⟨last, rfl⟩
  | ok found =>
    cases found with
    | none => exact .inl rfl
    | some found =>
      obtain ⟨n, hn, hfind, hm⟩ := hfinds found.1 found.2 hsearch
      rw [h n found.2 hn hfind] at hm
      cases hm

/-- The search for a class method that nothing declares ends unless superclasses go round. -/
theorem endless_resolveMethod_iff (h : t.Undeclared owner name desc) (hholds : t.Holds owner) :
    Endless (t.resolveMethod owner name desc) ↔ t.RoundAbove owner := by
  obtain ⟨c, hfind⟩ := hholds.exists_find?
  constructor
  · rintro ⟨last, hlast⟩
    rcases t.resolveMethod_fails owner name desc _ hlast with hnot | hmisses | ⟨-, hround⟩
    · cases hnot
    · exact absurd hmisses hholds.not_misses
    · exact hround
  · intro hround
    unfold resolveMethod
    rw [lookup_eq_ok.2 hfind]
    show Endless (t.methodAbove name desc c [owner] >>= _)
    cases hwalk : t.methodAbove name desc c [owner] with
    | error e =>
      rcases methodAbove_fails name desc hfind e hwalk with hmisses | ⟨⟨last, rfl⟩, -⟩
      · exact absurd hmisses hholds.not_misses
      · exact ⟨last, rfl⟩
    | ok found =>
      cases found with
      | some found =>
        obtain ⟨n, hn, hfind', hm⟩ := (methodAbove_visits (fun a b ha hab => ha.tail hab) name desc
          (Relation.ReflTransGen.refl (r := t.Inherits)) hfind).2 found.1 found.2 hwalk
        rw [h n found.2 hn hfind'] at hm
        cases hm
      | none =>
        rcases h.searchInterfaces hholds with hnone | ⟨last, hlast⟩
        · exact absurd hround (not_roundAbove_of_searchInterfaces hnone)
        · exact ⟨last, by simp only [bind, Except.bind, hlast]⟩

theorem endless_resolveInterfaceMethod_iff (h : t.Undeclared owner name desc)
    (hholds : t.Holds owner) (hroot : t.Undeclared objectClass name desc)
    (hheld : t.Holds objectClass) :
    Endless (t.resolveInterfaceMethod owner name desc) ↔ t.RoundAbove owner := by
  obtain ⟨c, hfind⟩ := hholds.exists_find?
  obtain ⟨object, hobject⟩ := hheld.exists_find?
  constructor
  · rintro ⟨last, hlast⟩
    rcases t.resolveInterfaceMethod_fails owner name desc _ hlast with
      hnot | ⟨missing, hmissing, -⟩ | hmisses | ⟨-, hround⟩
    · cases hnot
    · cases hmissing
    · exact absurd hmisses hholds.not_misses
    · exact hround
  · intro hround
    rcases h.searchInterfaces hholds with hnone | ⟨last, hlast⟩
    · exact absurd hround (not_roundAbove_of_searchInterfaces hnone)
    · refine ⟨last, ?_⟩
      simp only [resolveInterfaceMethod, lookup_eq_ok.2 hfind, lookup_eq_ok.2 hobject, bind,
        Except.bind, h owner c .refl hfind, hroot objectClass object .refl hobject,
        Option.filter_none, hlast]

/-! ### Every question -/

theorem superclasses_fails (t : ClassTable) (owner : String) :
    FailsOnly (fun e => t.Misses (· = owner) e ∨ (∃ missing, e = .superclassNotFound owner missing ∧
      Relation.ReflTransGen t.Extends owner missing ∧ t.find? missing = none) ∨
      e = .circular owner ∧ t.RoundAbove owner) (t.superclasses owner) := by
  refine .bind (fun e he => .inl (lookup_fails (P := (· = owner)) rfl e he)) fun c hc e he => ?_
  rcases superclassesFrom_fails (lookup_eq_ok.1 hc) rfl
    (fun s hs => mem_singleton.1 hs ▸ .refl) he with ⟨rfl, hround⟩ | hmissing
  · exact .inr (.inr ⟨rfl, .of_leadsRound .refl hround⟩)
  · exact .inr (.inl hmissing)

theorem implements_fails (t : ClassTable) (owner iface : String) :
    FailsOnly (t.Misses (Relation.ReflTransGen t.Inherits owner)) (t.implements owner iface) :=
  .bind (search_fails (fun _ _ ha hab => ha.tail hab) _ _ []
    fun _ hn => mem_singleton.1 hn ▸ .refl) fun _ _ => .pure _

theorem resolveField_fails (t : ClassTable) (owner name desc : String) :
    FailsOnly (fun e => e = .fieldNotFound owner name desc ∨
      t.Misses (Relation.ReflTransGen t.Inherits owner) e) (t.resolveField owner name desc) := by
  refine .bind (fun e he => .inr (search_fails (fun _ _ ha hab => ha.tail hab) _ _ []
    (fun _ hn => mem_singleton.1 hn ▸ .refl) e he)) fun found _ => ?_
  cases found with
  | some found => exact .pure _
  | none => exact .error (.inl rfl)

/-! ### Classes above which nothing is missing -/

section Holds

variable (hacyclic : ∀ name, ¬Relation.TransGen t.Extends name name) (h : t.Holds owner)
include h

theorem Holds.resolveField_fails :
    FailsOnly (fun e => e.isMissingMember = true) (t.resolveField owner name desc) := by
  intro e he
  rcases t.resolveField_fails owner name desc e he with rfl | hmisses
  · rfl
  · exact absurd hmisses h.not_misses

include hacyclic

theorem Holds.not_strays {e : HierarchyError} : ¬t.Strays owner e := by
  rintro (hmisses | ⟨-, above, -, hround⟩)
  · exact h.not_misses hmisses
  · exact hacyclic above hround

theorem Holds.resolveMethod_fails :
    FailsOnly (fun e => e.isMissingMember = true) (t.resolveMethod owner name desc) := by
  intro e he
  rcases t.resolveMethod_fails owner name desc e he with rfl | hstrays
  · rfl
  · exact absurd hstrays (h.not_strays hacyclic)

theorem Holds.resolveInterfaceMethod_fails (hroot : t.Holds objectClass) :
    FailsOnly (fun e => e.isMissingMember = true) (t.resolveInterfaceMethod owner name desc) := by
  intro e he
  rcases t.resolveInterfaceMethod_fails owner name desc e he with
    rfl | ⟨missing, -, rfl, hnone⟩ | hstrays
  · rfl
  · exact absurd ⟨objectClass, rfl, .refl, hnone⟩ (hroot.not_misses (e := .classNotFound objectClass))
  · exact absurd hstrays (h.not_strays hacyclic)

end Holds

/-- On every table the superclasses of a class, whether it implements an interface, and its fields
are told or fail for a class that is missing, a circle of superclasses or a missing field. The
search for a method does what its loops do: it ends with the method, or for a missing class or
method, unless the loops go on without end. For this there has to be a circle of superclasses above
the class, and where no class is missing and none declares the method, every such circle does it. -/
theorem resolution_ends (t : ClassTable) (owner name desc : String) :
    FailsOnly (fun e => t.Misses (· = owner) e ∨ (∃ missing, e = .superclassNotFound owner missing ∧
      Relation.ReflTransGen t.Extends owner missing ∧ t.find? missing = none) ∨
      e = .circular owner ∧ t.RoundAbove owner) (t.superclasses owner) ∧
    FailsOnly (t.Misses (Relation.ReflTransGen t.Inherits owner)) (t.implements owner name) ∧
    FailsOnly (fun e => e = .fieldNotFound owner name desc ∨
      t.Misses (Relation.ReflTransGen t.Inherits owner) e) (t.resolveField owner name desc) ∧
    HasOutcome (t.resolveMethodWithin owner name desc) (t.resolveMethod owner name desc) ∧
    FailsOnly (fun e => e = .methodNotFound owner name desc ∨ t.Strays owner e)
      (t.resolveMethod owner name desc) ∧
    HasOutcome (t.resolveInterfaceMethodWithin owner name desc)
      (t.resolveInterfaceMethod owner name desc) ∧
    FailsOnly (fun e => e = .interfaceMethodNotFound owner name desc ∨
      t.Misses (· = objectClass) e ∨ t.Strays owner e)
      (t.resolveInterfaceMethod owner name desc) ∧
    (t.Undeclared owner name desc → t.Holds owner →
      (Endless (t.resolveMethod owner name desc) ↔ t.RoundAbove owner) ∧
      (t.Undeclared objectClass name desc → t.Holds objectClass →
        (Endless (t.resolveInterfaceMethod owner name desc) ↔ t.RoundAbove owner))) := by
  refine ⟨t.superclasses_fails owner, t.implements_fails owner name,
    t.resolveField_fails owner name desc, t.hasOutcome_resolveMethod owner name desc,
    t.resolveMethod_fails owner name desc, t.hasOutcome_resolveInterfaceMethod owner name desc,
    t.resolveInterfaceMethod_fails owner name desc, fun h hholds => ⟨?_, fun hroot hheld => ?_⟩⟩
  · exact endless_resolveMethod_iff h hholds
  · exact endless_resolveInterfaceMethod_iff h hholds hroot hheld

/-- Two classes, each the superclass of the other. -/
def circleTable : ClassTable :=
  ⟨[{ name := "app/Dog", super := some "app/Wolf" }, { name := "app/Wolf", super := some "app/Dog" }]⟩

/-- In a circle of two classes, the search for a method that neither declares goes on after any
number of rounds, while the question for the superclasses ends. -/
theorem search_in_circle_endless :
    circleTable.superclasses "app/Dog" = .error (.circular "app/Dog") ∧
    Endless (circleTable.resolveMethod "app/Dog" "bark" "()V") ∧
    ∀ n, circleTable.resolveMethodWithin "app/Dog" "bark" "()V" n = none := by
  have hdog : circleTable.find? "app/Dog" =
      some { name := "app/Dog", super := some "app/Wolf" } := by decide
  have hwolf : circleTable.find? "app/Wolf" =
      some { name := "app/Wolf", super := some "app/Dog" } := by decide
  have hholds : circleTable.Holds "app/Dog" := holds_of_closed (by decide) (by decide)
  have hundeclared : circleTable.Undeclared "app/Dog" "bark" "()V" := by
    intro above cls _ hfind
    have hmethods : ∀ cls ∈ circleTable.classes, cls.method? "bark" "()V" = none := by decide
    exact hmethods cls (mem_of_find? hfind).1
  have hround : circleTable.RoundAbove "app/Dog" :=
    ⟨"app/Dog", .refl, .tail (.single ⟨_, hdog, rfl⟩) ⟨_, hwolf, rfl⟩⟩
  have hendless := (endless_resolveMethod_iff hundeclared hholds).2 hround
  refine ⟨?_, hendless, (circleTable.hasOutcome_resolveMethod _ _ _).1 hendless⟩
  rw [superclasses, lookup_eq_ok.2 hdog]
  show circleTable.superclassesFrom "app/Dog" (some "app/Wolf") ["app/Dog"] = _
  rw [superclassesFrom, dif_neg (by decide)]
  split
  · next hnone => cases hnone.symm.trans hwolf
  · next cls hfind =>
    cases hwolf.symm.trans hfind
    rw [superclassesFrom, dif_pos (by decide)]
    rfl

end Bytecode.ClassTable
