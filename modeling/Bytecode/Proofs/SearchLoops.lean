import Bytecode.Proofs.ClassSearches

/-!
Searches for methods that do not end.

A method is looked up in two loops: up the superclasses of a class, then through the interfaces
above it. Neither loop remembers the classes it has been to, so a circle of superclasses can keep it
going for ever. `methodAbove` and `searchInterfaces` do remember them, and call such a search
endless.

Main statements: `hasOutcome_methodAbove` and `hasOutcome_searchInterfaces`, what is called endless
is a loop that no number of rounds finishes, and everything else is what the loop ends with.
-/
namespace Bytecode

open List

/-! ### Loops and their outcomes -/

/-- The outcome is that a search goes on without end. -/
def Endless {α : Type} (r : Except HierarchyError α) : Prop :=
  ∃ name, r = .error (.endless name)

/-- The outcome of a loop that may be cut off: it is cut off after any number of rounds, or it ends
with a result after a certain number. -/
def HasOutcome {α : Type} (loop : Nat → Option (Except HierarchyError α))
    (r : Except HierarchyError α) : Prop :=
  (Endless r → ∀ n, loop n = none) ∧
    (¬Endless r → ∃ rounds, ∀ n, loop n = if rounds ≤ n then some r else none)

/-- Goes on with what a loop ends with. -/
def proceed {α β : Type} (x : Option (Except HierarchyError α))
    (f : α → Option (Except HierarchyError β)) : Option (Except HierarchyError β) :=
  match x with
  | none => none
  | some (.error e) => some (.error e)
  | some (.ok a) => f a

/-- From `a` a relation leads into a circle. -/
def LeadsRound {α : Type} (R : α → α → Prop) (a : α) : Prop :=
  ∃ d, Relation.ReflTransGen R a d ∧ Relation.TransGen R d d

section Loops

variable {α : Type} {loop next : Nat → Option (Except HierarchyError α)}
  {r : Except HierarchyError α}

@[simp] theorem not_endless_ok (a : α) : ¬Endless (.ok a : Except HierarchyError α) := by
  rintro ⟨name, h⟩
  cases h

theorem HasOutcome.of_endless (hr : Endless r) (h : ∀ n, loop n = none) : HasOutcome loop r :=
  ⟨fun _ => h, fun hnot => absurd hr hnot⟩

theorem HasOutcome.of_end (hr : ¬Endless r) (hzero : loop 0 = none)
    (h : ∀ n, loop (n + 1) = some r) : HasOutcome loop r := by
  refine ⟨fun hendless => absurd hendless hr, fun _ => ⟨1, fun n => ?_⟩⟩
  cases n with
  | zero => simpa using hzero
  | succ n => simpa using h n

theorem HasOutcome.round (hzero : loop 0 = none) (hround : ∀ n, loop (n + 1) = next n)
    (h : HasOutcome next r) : HasOutcome loop r := by
  refine ⟨fun hr n => ?_, fun hr => ?_⟩
  · cases n with
    | zero => exact hzero
    | succ n => rw [hround, h.1 hr]
  · obtain ⟨rounds, hrounds⟩ := h.2 hr
    refine ⟨rounds + 1, fun n => ?_⟩
    cases n with
    | zero => simpa using hzero
    | succ n => simp [hround, hrounds]

theorem HasOutcome.of_answer (hr : ¬Endless r) : HasOutcome (fun _ => some r) r :=
  ⟨fun hendless => absurd hendless hr, fun _ => ⟨0, fun n => by simp⟩⟩

theorem HasOutcome.proceed {β : Type} {f : Nat → α → Option (Except HierarchyError β)}
    {g : α → Except HierarchyError β} (h : HasOutcome loop r)
    (hf : ∀ a, r = .ok a → HasOutcome (f · a) (g a)) :
    HasOutcome (fun n => proceed (loop n) (f n)) (r >>= g) := by
  cases r with
  | error e =>
    refine ⟨fun ⟨name, hname⟩ n => ?_, fun hends => ?_⟩
    · cases hname
      show Bytecode.proceed (loop n) (f n) = none
      rw [h.1 ⟨name, rfl⟩ n, Bytecode.proceed]
    · have hends' : ¬Endless (.error e : Except HierarchyError α) := by
        rintro ⟨name, hname⟩
        cases hname
        exact hends ⟨name, rfl⟩
      obtain ⟨rounds, hrounds⟩ := h.2 hends'
      refine ⟨rounds, fun n => ?_⟩
      show Bytecode.proceed (loop n) (f n) = _
      rw [hrounds]
      split
      · rfl
      · rfl
  | ok a =>
    obtain ⟨rounds, hrounds⟩ := h.2 (not_endless_ok a)
    refine ⟨fun hendless n => ?_, fun hends => ?_⟩
    · show Bytecode.proceed (loop n) (f n) = none
      rw [hrounds]
      split
      · exact (hf a rfl).1 hendless n
      · rfl
    · obtain ⟨rounds', hrounds'⟩ := (hf a rfl).2 hends
      refine ⟨max rounds rounds', fun n => ?_⟩
      show Bytecode.proceed (loop n) (f n) = _
      rw [hrounds]
      by_cases hfirst : rounds ≤ n
      · have hmax : max rounds rounds' ≤ n ↔ rounds' ≤ n := by omega
        simp only [hfirst, if_true, hmax]
        exact hrounds' n
      · have hmax : ¬max rounds rounds' ≤ n := by omega
        simp only [hfirst, hmax, if_false]
        rfl

/-- What leads into a circle can always go on. -/
theorem LeadsRound.exists_step {R : α → α → Prop} {a : α} (h : LeadsRound R a) :
    ∃ b, R a b ∧ LeadsRound R b := by
  obtain ⟨d, had, hdd⟩ := h
  rcases had.cases_head with rfl | ⟨b, hab, hbd⟩
  · obtain ⟨b, hab, hba⟩ := Relation.TransGen.head'_iff.1 hdd
    exact ⟨b, hab, a, hba, hdd⟩
  · exact ⟨b, hab, d, hbd, hdd⟩

theorem LeadsRound.head {R : α → α → Prop} {a b : α} (hab : R a b) (h : LeadsRound R b) :
    LeadsRound R a := by
  obtain ⟨d, hbd, hdd⟩ := h
  exact ⟨d, .head hab hbd, hdd⟩

end Loops

namespace ClassTable

variable {t : ClassTable} {name desc owner a b : String} {cls : Class}

/-! ### Up the superclasses -/

/-- The walk up the superclasses for a method, for at most a number of classes. -/
def methodWithin (t : ClassTable) (name desc : String) :
    Nat → Class → Option (Except HierarchyError (Option (Method × Class)))
  | 0, _ => none
  | n + 1, c =>
    match c.method? name desc with
    | some m => some (.ok (some (m, c)))
    | none =>
      match c.super with
      | none => some (.ok none)
      | some super =>
        match t.lookup super with
        | .error e => some (.error e)
        | .ok above => methodWithin t name desc n above

/-- The walk for a method goes on from the class `a` to its superclass `b`. -/
def Passes (t : ClassTable) (name desc a b : String) : Prop :=
  ∃ cls, t.find? a = some cls ∧ cls.method? name desc = none ∧ cls.super = some b

theorem Passes.extends (h : t.Passes name desc a b) : t.Extends a b := by
  obtain ⟨cls, hfind, -, hsuper⟩ := h
  exact ⟨cls, hfind, hsuper⟩

theorem methodWithin_of_leadsRound (hround : LeadsRound (t.Passes name desc) a)
    (hfind : t.find? a = some cls) (n : Nat) : t.methodWithin name desc n cls = none := by
  induction n generalizing a cls with
  | zero => rfl
  | succ n ih =>
    obtain ⟨b, ⟨cls', hfind', hmethod, hsuper⟩, hb⟩ := hround.exists_step
    cases hfind.symm.trans hfind'
    -- The superclass passes the walk on as well, so it is there.
    obtain ⟨-, ⟨above, habove, -⟩, -⟩ := hb.exists_step
    simp only [methodWithin, hmethod, hsuper, lookup_eq_ok.2 habove]
    exact ih hb habove

variable {seen names done l : List String} {e : HierarchyError}

theorem leadsRound_of_methodAbove {last : String} (hfind : t.find? a = some cls)
    (hseen : ∀ s ∈ seen, Relation.ReflTransGen (t.Passes name desc) s a)
    (h : t.methodAbove name desc cls seen = .error (.endless last)) :
    LeadsRound (t.Passes name desc) a := by
  fun_induction t.methodAbove name desc cls seen generalizing a with
  | case1 => cases h
  | case2 => cases h
  | case3 cls seen hmethod super hsuper hagain =>
    have hmem : super ∈ seen := by simpa using hagain
    have hstep : t.Passes name desc a super := ⟨cls, hfind, hmethod, hsuper⟩
    exact ⟨super, .single hstep, .tail' (hseen super hmem) hstep⟩
  | case4 => cases h
  | case5 cls seen hmethod super hsuper _ above habove _ ih =>
    have hstep : t.Passes name desc a super := ⟨cls, hfind, hmethod, hsuper⟩
    refine .head hstep (ih habove (fun s hs => ?_) h)
    rcases mem_cons.1 hs with rfl | hs
    · exact .refl
    · exact (hseen s hs).tail hstep

theorem hasOutcome_methodAbove (hfind : t.find? a = some cls)
    (hseen : ∀ s ∈ seen, Relation.ReflTransGen (t.Passes name desc) s a) :
    HasOutcome (fun n => t.methodWithin name desc n cls) (t.methodAbove name desc cls seen) := by
  by_cases hends : Endless (t.methodAbove name desc cls seen)
  · obtain ⟨last, hlast⟩ := hends
    exact .of_endless ⟨last, hlast⟩
      (methodWithin_of_leadsRound (leadsRound_of_methodAbove hfind hseen hlast) hfind)
  fun_induction t.methodAbove name desc cls seen generalizing a with
  | case1 cls _ m hmethod =>
    exact .of_end hends rfl fun n => by simp only [methodWithin, hmethod]
  | case2 cls _ hmethod hsuper =>
    exact .of_end hends rfl fun n => by simp only [methodWithin, hmethod, hsuper]
  | case3 cls seen _ super => exact absurd ⟨super, rfl⟩ hends
  | case4 cls seen hmethod super hsuper _ hnone =>
    have hlookup : t.lookup super = .error (.classNotFound super) := by rw [lookup, hnone]
    exact .of_end hends rfl fun n => by simp only [methodWithin, hmethod, hsuper, hlookup]
  | case5 cls seen hmethod super hsuper _ above habove _ ih =>
    have hstep : t.Passes name desc a super := ⟨cls, hfind, hmethod, hsuper⟩
    have hrest := ih habove (fun s hs => by
      rcases mem_cons.1 hs with rfl | hs
      · exact .refl
      · exact (hseen s hs).tail hstep) hends
    exact hrest.round rfl fun n => by
      simp only [methodWithin, hmethod, hsuper, lookup_eq_ok.2 habove]

/-! ### Circles of superclasses -/

/-- Why the superclasses of a class cannot be told: they go round in a circle, or one of them is
missing. -/
theorem superclassesFrom_fails {super : Option String} (hfind : t.find? a = some cls)
    (hsuper : cls.super = super) (hseen : ∀ s ∈ seen, Relation.ReflTransGen t.Extends s a)
    (h : t.superclassesFrom name super seen = .error e) :
    (e = .circular name ∧ LeadsRound t.Extends a) ∨
      ∃ missing, e = .superclassNotFound name missing ∧
        Relation.ReflTransGen t.Extends a missing ∧ t.find? missing = none := by
  fun_induction t.superclassesFrom name super seen generalizing a cls with
  | case1 => cases h
  | case2 seen super hagain =>
    cases h
    have hmem : super ∈ seen := by simpa using hagain
    have hstep : t.Extends a super := ⟨cls, hfind, hsuper⟩
    exact .inl ⟨rfl, super, .single hstep, .tail' (hseen super hmem) hstep⟩
  | case3 seen super _ hnone =>
    cases h
    exact .inr ⟨super, rfl, .single ⟨cls, hfind, hsuper⟩, hnone⟩
  | case4 seen super _ above habove _ ih =>
    have hstep : t.Extends a super := ⟨cls, hfind, hsuper⟩
    have hrest : t.superclassesFrom name above.super (super :: seen) = .error e := by
      cases hwalk : t.superclassesFrom name above.super (super :: seen) with
      | ok rest =>
        rw [hwalk] at h
        cases h
      | error e' =>
        rw [hwalk] at h
        cases h
        rfl
    rcases ih habove rfl (fun s hs => by
      rcases mem_cons.1 hs with rfl | hs
      · exact .refl
      · exact (hseen s hs).tail hstep) hrest with ⟨rfl, hround⟩ | ⟨missing, rfl, habove', hnone⟩
    · exact .inl ⟨rfl, hround.head hstep⟩
    · exact .inr ⟨missing, rfl, .head hstep habove', hnone⟩

theorem leadsRound_of_isCircular (h : t.isCircular a = true) : LeadsRound t.Extends a := by
  unfold isCircular at h
  split at h
  · next n hcircular =>
    unfold superclasses lookup at hcircular
    cases hfind : t.find? a with
    | none =>
      rw [hfind] at hcircular
      cases hcircular
    | some cls =>
      rw [hfind] at hcircular
      rcases superclassesFrom_fails hfind rfl (fun s hs => mem_singleton.1 hs ▸ .refl)
        hcircular with ⟨-, hround⟩ | ⟨missing, hmissing, -⟩
      · exact hround
      · cases hmissing
  · cases h

/-- Where nothing above a class is missing, its superclasses can be told unless they go round. -/
theorem exists_superclasses_of_closed {P : String → Prop}
    (hclosed : ∀ a, P a → t.has a = true ∧ ∀ b, t.Extends a b → P b) (ha : P a)
    (hcircular : t.isCircular a = false) : ∃ above, t.superclasses a = .ok above := by
  have hreach : ∀ b, Relation.ReflTransGen t.Extends a b → P b := by
    intro b hab
    induction hab with
    | refl => exact ha
    | tail _ hstep ih => exact (hclosed _ ih).2 _ hstep
  obtain ⟨cls, hfind⟩ := has_iff.1 (hclosed a ha).1
  cases hwalk : t.superclassesFrom a cls.super [a] with
  | ok above => exact ⟨above, superclasses_eq_ok.2 ⟨cls, hfind, superclassesFrom_eq_ok.1 hwalk⟩⟩
  | error e =>
    have hfails : t.superclasses a = .error e := by
      rw [superclasses, lookup_eq_ok.2 hfind]
      exact hwalk
    rcases superclassesFrom_fails hfind rfl (fun s hs => mem_singleton.1 hs ▸ .refl)
      hwalk with ⟨rfl, -⟩ | ⟨missing, -, hmissing, hnone⟩
    · rw [isCircular, hfails] at hcircular
      cases hcircular
    · obtain ⟨cls', hfind'⟩ := has_iff.1 (hclosed missing (hreach missing hmissing)).1
      cases hnone.symm.trans hfind'

/-! ### Missing classes -/

theorem Misses.not_endless {α : Type} {P : String → Prop} (h : t.Misses P e) :
    ¬Endless (.error e : Except HierarchyError α) := by
  obtain ⟨missing, rfl, -⟩ := h
  rintro ⟨last, hlast⟩
  cases hlast

theorem scanInterfaces_fails {P : String → Prop} (name desc : String) (seen : List String)
    (hnames : ∀ i ∈ names, P i) :
    FailsOnly (t.Misses P) (t.scanInterfaces name desc seen names) := by
  induction names generalizing seen with
  | nil => exact .ok _
  | cons i names ih =>
    have hrest : ∀ j ∈ names, P j := fun j hj => hnames j (mem_cons_of_mem _ hj)
    rw [scanInterfaces]
    split
    · exact ih seen hrest
    · refine .bind (lookup_fails (hnames i mem_cons_self)) fun c _ => ?_
      split
      · exact .pure _
      · exact .bind (ih (i :: seen) hrest) fun r _ => .pure _

/-! ### Names that come for the first time -/

/-- The names of a list that are not in `done`, each where it first stands. -/
def firsts (done : List String) : List String → List String
  | [] => []
  | n :: l => if n ∈ done then firsts done l else n :: firsts (n :: done) l

theorem mem_firsts : a ∈ firsts done l ↔ a ∈ l ∧ a ∉ done := by
  induction l generalizing done with
  | nil => simp [firsts]
  | cons n l ih =>
    rw [firsts]
    split
    · next hn =>
      rw [ih, mem_cons]
      constructor
      · rintro ⟨ha, hdone⟩
        exact ⟨.inr ha, hdone⟩
      · rintro ⟨rfl | ha, hdone⟩
        · exact absurd hn hdone
        · exact ⟨ha, hdone⟩
    · next hn =>
      rw [mem_cons, ih, mem_cons, mem_cons]
      by_cases han : a = n
      · subst han
        simp [hn]
      · simp [han]

theorem firsts_congr {done' : List String} (h : ∀ n, n ∈ done ↔ n ∈ done') :
    firsts done l = firsts done' l := by
  induction l generalizing done done' with
  | nil => rfl
  | cons n l ih =>
    rw [firsts, firsts]
    simp only [h n]
    split
    · exact ih h
    · exact congrArg (n :: ·) (ih fun m => by simp only [mem_cons, h m])

theorem firsts_append (done l l' : List String) :
    firsts done (l ++ l') = firsts done l ++ firsts (l ++ done) l' := by
  induction l generalizing done with
  | nil => rfl
  | cons n l ih =>
    rw [cons_append, firsts, firsts]
    split
    · next hn =>
      have hmem : ∀ m, m ∈ l ++ done ↔ m ∈ n :: l ++ done := by
        intro m
        simp only [cons_append, mem_cons, mem_append]
        constructor
        · exact .inr
        · rintro (rfl | h)
          · exact .inr hn
          · exact h
      rw [ih, firsts_congr hmem]
    · have hmem : ∀ m, m ∈ l ++ n :: done ↔ m ∈ n :: l ++ done := by
        intro m
        simp only [cons_append, mem_cons, mem_append]
        exact or_left_comm
      rw [ih, cons_append, firsts_congr hmem]

theorem firsts_append_congr {m : List String} (h : firsts done l = firsts done m)
    (k : List String) : firsts done (l ++ k) = firsts done (m ++ k) := by
  have hmem : ∀ n, n ∈ l ++ done ↔ n ∈ m ++ done := by
    intro n
    have hn : n ∈ firsts done l ↔ n ∈ firsts done m := by rw [h]
    rw [mem_firsts, mem_firsts] at hn
    simp only [mem_append]
    by_cases hdone : n ∈ done
    · simp [hdone]
    · simpa [hdone] using hn
  rw [firsts_append, firsts_append, h, firsts_congr hmem]

theorem firsts_eq_nil : firsts done l = [] ↔ ∀ n ∈ l, n ∈ done := by
  rw [eq_nil_iff_forall_not_mem]
  simp only [mem_firsts, not_and, not_not]

/-! ### Through the interfaces -/

/-- The search through the interfaces of the classes in a queue and above it, for at most a number
of classes. -/
def interfacesWithin (t : ClassTable) (name desc : String) :
    Nat → List Class → List String → Option (Except HierarchyError (Option (Method × Class)))
  | 0, _, _ => none
  | _ + 1, [], _ => some (.ok none)
  | n + 1, c :: queue, seen =>
    match t.scanInterfaces name desc seen c.interfaces with
    | .error e => some (.error e)
    | .ok (some found, _) => some (.ok (some found))
    | .ok (none, fresh) =>
      match c.super with
      | none => interfacesWithin t name desc n (queue ++ fresh.filterMap t.find?) (fresh ++ seen)
      | some super =>
        match t.lookup super with
        | .error e => some (.error e)
        | .ok above =>
          interfacesWithin t name desc n (queue ++ fresh.filterMap t.find? ++ [above])
            (fresh ++ seen)

theorem scanInterfaces_of_seen (h : ∀ i ∈ names, i ∈ seen) :
    t.scanInterfaces name desc seen names = .ok (none, []) := by
  induction names with
  | nil => rfl
  | cons i names ih =>
    rw [scanInterfaces, if_pos (by simpa using h i mem_cons_self)]
    exact ih fun j hj => h j (mem_cons_of_mem _ hj)

theorem scanInterfaces_none {fresh : List String}
    (h : t.scanInterfaces name desc seen names = .ok (none, fresh)) :
    (∀ i ∈ fresh, i ∈ names ∧ ∃ c, t.find? i = some c) ∧ ∀ i ∈ names, i ∈ fresh ++ seen := by
  induction names generalizing seen fresh with
  | nil =>
    cases h
    simp
  | cons i names ih =>
    rw [scanInterfaces] at h
    split at h
    · next hi =>
      obtain ⟨hfound, hnames⟩ := ih h
      refine ⟨fun j hj => (hfound j hj).imp_left (mem_cons_of_mem _), fun j hj => ?_⟩
      rcases mem_cons.1 hj with rfl | hj
      · exact mem_append_right _ (by simpa using hi)
      · exact hnames j hj
    · obtain ⟨c, hc, hrest⟩ := bind_eq_ok.1 h
      split at hrest
      · cases hrest
      · obtain ⟨⟨found, fresh'⟩, hscan, heq⟩ := bind_eq_ok.1 hrest
        cases heq
        obtain ⟨hfound, hnames⟩ := ih hscan
        refine ⟨fun j hj => ?_, fun j hj => ?_⟩
        · rcases mem_cons.1 hj with rfl | hj
          · exact ⟨mem_cons_self, c, lookup_eq_ok.1 hc⟩
          · exact (hfound j hj).imp_left (mem_cons_of_mem _)
        · rcases mem_cons.1 hj with rfl | hj
          · simp
          · have hmem := hnames j hj
            simp only [mem_append, mem_cons] at hmem ⊢
            tauto

theorem map_name_filterMap (h : ∀ i ∈ names, ∃ c, t.find? i = some c) :
    (names.filterMap t.find?).map Class.name = names := by
  induction names with
  | nil => rfl
  | cons i names ih =>
    obtain ⟨c, hc⟩ := h i mem_cons_self
    rw [filterMap_cons, hc, map_cons, (mem_of_find? hc).2,
      ih fun j hj => h j (mem_cons_of_mem _ hj)]

/-- A queue of classes and a queue of names stand for each other: they show the same names for the
first time. All interfaces of a class that is done have been seen, and its superclass waits or is
done. A circle of superclasses that has been met keeps a class waiting. -/
structure Mirrors (t : ClassTable) (classes : List Class) (queue seen done : List String) :
    Prop where
  registered : ∀ c ∈ classes, t.find? c.name = some c
  same : firsts done (classes.map Class.name) = firsts done queue
  closed : ∀ d ∈ done, ∃ c, t.find? d = some c ∧ (∀ i ∈ c.interfaces, i ∈ seen) ∧
    ∀ super ∈ c.super, super ∈ done ∨ super ∈ classes.map Class.name
  goesRound : (∃ d ∈ done, LeadsRound t.Extends d) → ∃ c ∈ classes, LeadsRound t.Extends c.name

namespace Mirrors

variable {classes : List Class} {queue seen done : List String} {c : Class}

theorem exists_above (h : t.Mirrors classes queue seen done) {d super : String}
    (hd : d ∈ done) (hfind : t.find? d = some cls) (hsuper : cls.super = some super) :
    ∃ above, t.find? super = some above ∧ (super ∈ done ∨ super ∈ classes.map Class.name) := by
  obtain ⟨cls', hfind', -, hnext⟩ := h.closed d hd
  cases hfind.symm.trans hfind'
  refine (hnext super hsuper).elim (fun hdone => ?_) fun hwaits => ?_
  · obtain ⟨above, habove, -⟩ := h.closed super hdone
    exact ⟨above, habove, .inl hdone⟩
  · obtain ⟨above, hmem, rfl⟩ := mem_map.1 hwaits
    exact ⟨above, h.registered above hmem, .inr hwaits⟩

/-- A class that is done and comes up again is only replaced by its superclass. -/
theorem skip (name desc : String) (h : t.Mirrors (c :: classes) queue seen done)
    (hc : c.name ∈ done) :
    ∃ above : Option Class, above.map Class.name = c.super ∧
      t.Mirrors (classes ++ above.toList) queue seen done ∧
      ∀ n, t.interfacesWithin name desc (n + 1) (c :: classes) seen =
        t.interfacesWithin name desc n (classes ++ above.toList) seen := by
  have hfind := h.registered c mem_cons_self
  obtain ⟨c', hfind', hinterfaces, hnext⟩ := h.closed c.name hc
  cases hfind.symm.trans hfind'
  have hscan : t.scanInterfaces name desc seen c.interfaces = .ok (none, []) :=
    scanInterfaces_of_seen hinterfaces
  obtain ⟨above, habove, hregistered, hmem⟩ : ∃ above : Option Class,
      above.map Class.name = c.super ∧ (∀ a ∈ above, t.find? a.name = some a) ∧
      ∀ a ∈ above, a.name ∈ done ∨ a.name ∈ classes.map Class.name := by
    cases hsuper : c.super with
    | none => exact ⟨none, rfl, by simp, by simp⟩
    | some super =>
      obtain ⟨above, habove, hwhere⟩ := h.exists_above hc hfind hsuper
      obtain ⟨-, rfl⟩ := mem_of_find? habove
      refine ⟨some above, rfl, by simpa using habove, fun a ha => ?_⟩
      cases ha
      rcases hwhere with hdone | hwaits
      · exact .inl hdone
      · rcases mem_cons.1 hwaits with hself | hwaits
        · exact .inl (hself ▸ hc)
        · exact .inr hwaits
  refine ⟨above, habove, ⟨?_, ?_, ?_, ?_⟩, fun n => ?_⟩
  · intro d hd
    rcases mem_append.1 hd with hd | hd
    · exact h.registered d (mem_cons_of_mem _ hd)
    · exact hregistered d (by simpa using hd)
  · -- Neither the class nor its superclass shows a name for the first time.
    have hsame := h.same
    rw [map_cons, firsts, if_pos hc] at hsame
    have hnone : firsts (classes.map Class.name ++ done) (above.toList.map Class.name) = [] := by
      rw [firsts_eq_nil]
      intro n hn
      obtain ⟨a, ha, rfl⟩ := mem_map.1 hn
      exact mem_append.2 (hmem a (by simpa using ha)).symm
    rw [map_append, firsts_append, hsame, hnone, append_nil]
  · intro d hd
    obtain ⟨cls, hcls, hseen, hsuper⟩ := h.closed d hd
    refine ⟨cls, hcls, hseen, fun super hs => ?_⟩
    rcases hsuper super hs with hdone | hwaits
    · exact .inl hdone
    · rcases mem_cons.1 hwaits with rfl | hwaits
      · exact .inl hc
      · exact .inr (by simp [mem_map.1 hwaits])
  · intro hround
    obtain ⟨d, hd, hleads⟩ := h.goesRound hround
    rcases mem_cons.1 hd with rfl | hd
    · -- What goes round from a class goes round from its superclass.
      obtain ⟨super, ⟨cls, hcls, hsuper⟩, hleads⟩ := hleads.exists_step
      cases hfind.symm.trans hcls
      obtain ⟨a, rfl, rfl⟩ := Option.map_eq_some_iff.1 (habove.trans hsuper)
      exact ⟨a, by simp, hleads⟩
    · exact ⟨d, mem_append_left _ hd, hleads⟩
  · cases hsuper : c.super with
    | none =>
      obtain rfl : above = none := by simpa [hsuper] using habove
      simp only [interfacesWithin, hscan, hsuper, filterMap_nil, Option.toList_none, nil_append]
    | some super =>
      obtain ⟨a, rfl, rfl⟩ := Option.map_eq_some_iff.1 (habove.trans hsuper)
      simp only [interfacesWithin, hscan, hsuper, lookup_eq_ok.2 (hregistered a rfl),
        filterMap_nil, append_nil, Option.toList_some, nil_append]

/-- Once all names are done, a circle keeps the queue from running empty. -/
theorem interfacesWithin_of_round (h : t.Mirrors classes [] seen done)
    (hround : ∃ d ∈ done, LeadsRound t.Extends d) (n : Nat) :
    t.interfacesWithin name desc n classes seen = none := by
  induction n generalizing classes with
  | zero => rfl
  | succ n ih =>
    obtain ⟨c, hc, -⟩ := h.goesRound hround
    cases classes with
    | nil => cases hc
    | cons c classes =>
      have hdone := firsts_eq_nil.1 h.same c.name (by simp)
      obtain ⟨above, -, hnext, heq⟩ := h.skip name desc hdone
      rw [heq n]
      exact ih hnext

/-- The superclasses of a class that is done can be told, unless they go round. -/
theorem exists_superclasses (h : t.Mirrors classes [] seen done) {d : String} (hd : d ∈ done)
    (hcircular : t.isCircular d = false) : ∃ above, t.superclasses d = .ok above := by
  refine exists_superclasses_of_closed (fun a ha => ?_) hd hcircular
  obtain ⟨cls, hfind, -, hsuper⟩ := h.closed a ha
  refine ⟨has_iff.2 ⟨cls, hfind⟩, ?_⟩
  rintro b ⟨cls', hfind', hb⟩
  cases hfind.symm.trans hfind'
  rcases hsuper b hb with hdone | hwaits
  · exact hdone
  · exact firsts_eq_nil.1 h.same b hwaits

end Mirrors

/-- The number of superclasses of a class. -/
def superCount (t : ClassTable) (name : String) : Nat :=
  ((t.superclasses name).toOption.getD []).length

theorem superCount_of_super {above above' : List String} (hfind : t.find? a = some cls)
    (hsuper : cls.super = some b) (ha : t.superclasses a = .ok above)
    (hb : t.superclasses b = .ok above') : t.superCount a = t.superCount b + 1 := by
  obtain ⟨cls', hfind', hwalk⟩ := superclasses_eq_ok.1 ha
  cases hfind.symm.trans hfind'
  obtain ⟨next, hnext, hwalk'⟩ := superclasses_eq_ok.1 hb
  rw [hsuper] at hwalk
  cases hwalk with
  | up _ hnext' hrest =>
    cases hnext.symm.trans hnext'
    obtain rfl := hrest.unique hwalk'
    simp [superCount, ha, hb, Except.toOption]

/-- The rounds that the classes of a queue take when only their superclasses follow them. -/
def rounds (t : ClassTable) : List Class → Nat
  | [] => 0
  | c :: queue => t.superCount c.name + 1 + t.rounds queue

theorem rounds_append (queue queue' : List Class) :
    t.rounds (queue ++ queue') = t.rounds queue + t.rounds queue' := by
  induction queue with
  | nil => simp [rounds]
  | cons c queue ih =>
    rw [cons_append, rounds, rounds, ih]
    omega

namespace Mirrors

variable {classes : List Class} {queue seen done : List String} {c : Class}

/-- Once all names are done, the queue runs empty unless superclasses go round. -/
theorem hasOutcome_of_done (h : t.Mirrors classes [] seen done)
    (hends : ∀ d ∈ done, t.isCircular d = false) :
    HasOutcome (fun n => t.interfacesWithin name desc n classes seen) (.ok none) := by
  induction hrounds : t.rounds classes using Nat.strongRecOn generalizing classes with
  | ind k ih =>
    subst hrounds
    cases classes with
    | nil => exact .of_end (not_endless_ok _) rfl fun n => rfl
    | cons c classes =>
      have hall := firsts_eq_nil.1 h.same
      have hdone := hall c.name (by simp)
      obtain ⟨above, habove, hnext, heq⟩ := h.skip name desc hdone
      refine (ih _ ?_ hnext rfl).round rfl heq
      rw [rounds_append, rounds]
      cases above with
      | none =>
        simp only [Option.toList_none, rounds]
        omega
      | some a =>
        -- The superclass has one superclass less.
        have ha : a.name ∈ done := firsts_eq_nil.1 hnext.same a.name (by simp)
        obtain ⟨supers, hsupers⟩ := h.exists_superclasses hdone (hends _ hdone)
        obtain ⟨supers', hsupers'⟩ := h.exists_superclasses ha (hends _ ha)
        have hcount := superCount_of_super (h.registered c mem_cons_self) habove.symm hsupers
          hsupers'
        simp only [Option.toList_some, rounds]
        omega

/-- Before the first name that is not done, the queue holds only classes that are done. -/
theorem exists_front {current : String} (h : t.Mirrors classes (current :: queue) seen done)
    (hcurrent : current ∉ done) :
    ∃ before c after, classes = before ++ c :: after ∧ (∀ b ∈ before, b.name ∈ done) ∧
      c.name = current := by
  have hsame := h.same
  rw [firsts, if_neg hcurrent] at hsame
  clear h
  induction classes with
  | nil => cases hsame
  | cons c classes ih =>
    rw [map_cons, firsts] at hsame
    split at hsame
    · next hc =>
      obtain ⟨before, c', after, rfl, hbefore, hc'⟩ := ih hsame
      refine ⟨c :: before, c', after, rfl, fun b hb => ?_, hc'⟩
      rcases mem_cons.1 hb with rfl | hb
      · exact hc
      · exact hbefore b hb
    · exact ⟨[], c, classes, rfl, by simp, (List.cons.inj hsame).1⟩

/-- The classes that are done make way for the first that is not. -/
theorem hasOutcome_of_front {current : String} {r : Except HierarchyError (Option (Method × Class))}
    (h : t.Mirrors classes (current :: queue) seen done) (hcurrent : current ∉ done)
    (hfind : t.find? current = some cls)
    (hfront : ∀ classes, t.Mirrors (cls :: classes) (current :: queue) seen done →
      HasOutcome (fun n => t.interfacesWithin name desc n (cls :: classes) seen) r) :
    HasOutcome (fun n => t.interfacesWithin name desc n classes seen) r := by
  obtain ⟨before, c, after, rfl, hbefore, rfl⟩ := h.exists_front hcurrent
  obtain rfl : c = cls := Option.some.inj ((h.registered c (by simp)).symm.trans hfind)
  induction before generalizing after with
  | nil => exact hfront after h
  | cons b before ih =>
    rw [cons_append] at h
    obtain ⟨above, -, hnext, heq⟩ := h.skip name desc (hbefore b mem_cons_self)
    simp only [append_assoc, cons_append] at hnext heq
    exact (ih _ (fun d hd => hbefore d (mem_cons_of_mem _ hd)) hnext).round rfl heq

/-- A class that comes up for the first time: its new interfaces and its superclass join both
queues. -/
theorem next {current : String} {fresh : List String} (above : Option Class)
    (h : t.Mirrors (c :: classes) (current :: queue) seen done) (hcurrent : current ∉ done)
    (hfound : t.find? current = some c)
    (hscan : t.scanInterfaces name desc seen c.interfaces = .ok (none, fresh))
    (habove : above.map Class.name = c.super) (hregistered : ∀ a ∈ above, t.find? a.name = some a) :
    t.Mirrors (classes ++ fresh.filterMap t.find? ++ above.toList)
      (queue ++ fresh ++ c.super.toList) (fresh ++ seen) (current :: done) := by
  have hfind := h.registered c mem_cons_self
  have hc := (mem_of_find? hfound).2
  obtain ⟨hfresh, hseen⟩ := scanInterfaces_none hscan
  have hnames := map_name_filterMap fun i hi => (hfresh i hi).2
  refine ⟨?_, ?_, ?_, ?_⟩
  · intro d hd
    simp only [mem_append, mem_filterMap, Option.mem_toList] at hd
    rcases hd with (hd | ⟨i, -, hd⟩) | hd
    · exact h.registered d (mem_cons_of_mem _ hd)
    · obtain ⟨-, rfl⟩ := mem_of_find? hd
      exact hd
    · exact hregistered d hd
  · have hsame := h.same
    rw [map_cons, hc, firsts, if_neg hcurrent, firsts, if_neg hcurrent] at hsame
    have hsuper : above.toList.map Class.name = c.super.toList := by
      rw [← habove]
      cases above <;> rfl
    rw [map_append, map_append, hnames, hsuper, append_assoc, append_assoc]
    exact firsts_append_congr (List.cons.inj hsame).2 _
  · intro d hd
    rcases mem_cons.1 hd with rfl | hd
    · refine ⟨c, hc ▸ hfind, hseen, fun super hsuper => .inr ?_⟩
      obtain ⟨a, rfl, rfl⟩ := Option.map_eq_some_iff.1 (habove.trans hsuper)
      simp
    · obtain ⟨cls, hcls, hinterfaces, hsuper⟩ := h.closed d hd
      refine ⟨cls, hcls, fun i hi => mem_append_right _ (hinterfaces i hi), fun super hs => ?_⟩
      rcases hsuper super hs with hdone | hwaits
      · exact .inl (mem_cons_of_mem _ hdone)
      · rcases mem_cons.1 hwaits with rfl | hwaits
        · exact .inl (hc ▸ mem_cons_self)
        · refine .inr ?_
          rw [map_append, map_append]
          exact mem_append_left _ (mem_append_left _ hwaits)
  · rintro ⟨d, hd, hleads⟩
    obtain ⟨e, he, hleads⟩ : ∃ e ∈ c :: classes, LeadsRound t.Extends e.name := by
      rcases mem_cons.1 hd with rfl | hd
      · exact ⟨c, mem_cons_self, hc ▸ hleads⟩
      · exact h.goesRound ⟨d, hd, hleads⟩
    rcases mem_cons.1 he with rfl | he
    · obtain ⟨super, ⟨cls, hcls, hsuper⟩, hleads⟩ := hleads.exists_step
      cases hfind.symm.trans hcls
      obtain ⟨a, rfl, rfl⟩ := Option.map_eq_some_iff.1 (habove.trans hsuper)
      exact ⟨a, by simp, hleads⟩
    · exact ⟨e, mem_append_left _ (mem_append_left _ he), hleads⟩

end Mirrors

/-- What a search through interfaces reports is the outcome of the loop. -/
theorem hasOutcome_searchInterfaces {classes : List Class} {queue : List String}
    (h : t.Mirrors classes queue seen done) :
    HasOutcome (fun n => t.interfacesWithin name desc n classes seen)
      (t.searchInterfaces name desc queue seen done) := by
  fun_induction t.searchInterfaces name desc queue seen done generalizing classes with
  | case1 seen done circle hcircle =>
    have hround : ∃ d ∈ done, LeadsRound t.Extends d :=
      ⟨circle, mem_of_find?_eq_some hcircle,
        leadsRound_of_isCircular (find?_some hcircle)⟩
    exact .of_endless ⟨circle, rfl⟩ (h.interfacesWithin_of_round hround)
  | case2 seen done hnone =>
    exact h.hasOutcome_of_done fun d hd => by simpa using List.find?_eq_none.1 hnone d hd
  | case3 seen done current queue hdone ih =>
    have hmem : current ∈ done := by simpa using hdone
    refine ih ⟨h.registered, ?_, h.closed, h.goesRound⟩
    rw [h.same, firsts, if_pos hmem]
  | case4 seen done current queue hfresh hnone =>
    have hcurrent : current ∉ done := by simpa using hfresh
    obtain ⟨before, c, after, rfl, -, rfl⟩ := h.exists_front hcurrent
    have hfind := h.registered c (by simp)
    cases hnone.symm.trans hfind
  | case5 seen done current queue hfresh cls hfind _ e hscan =>
    have hcurrent : current ∉ done := by simpa using hfresh
    refine h.hasOutcome_of_front hcurrent hfind fun classes hfront => ?_
    have hmisses : t.Misses (· ∈ cls.interfaces) e :=
      scanInterfaces_fails name desc seen (fun _ hi => hi) e hscan
    refine .of_end hmisses.not_endless rfl fun n => ?_
    simp only [interfacesWithin, hscan]
  | case6 seen done current queue hfresh cls hfind _ found _ hscan =>
    have hcurrent : current ∉ done := by simpa using hfresh
    refine h.hasOutcome_of_front hcurrent hfind fun classes hfront => ?_
    refine .of_end (not_endless_ok _) rfl fun n => ?_
    simp only [interfacesWithin, hscan]
  | case7 seen done current queue hfresh cls hfind _ fresh hscan hsuper ih =>
    have hcurrent : current ∉ done := by simpa using hfresh
    refine h.hasOutcome_of_front hcurrent hfind fun classes hfront => ?_
    have hnext := hfront.next none hcurrent hfind hscan hsuper.symm (by simp)
    simp only [hsuper, Option.toList_none, append_nil] at hnext
    refine (ih hnext).round rfl fun n => ?_
    simp only [interfacesWithin, hscan, hsuper]
  | case8 seen done current queue hfresh cls hfind _ fresh hscan super hsuper e hlookup =>
    have hcurrent : current ∉ done := by simpa using hfresh
    refine h.hasOutcome_of_front hcurrent hfind fun classes hfront => ?_
    have hmisses := lookup_fails (P := (· = super)) rfl e hlookup
    refine .of_end hmisses.not_endless rfl fun n => ?_
    simp only [interfacesWithin, hscan, hsuper, hlookup]
  | case9 seen done current queue hfresh cls hfind _ fresh hscan super hsuper above hlookup ih =>
    have hcurrent : current ∉ done := by simpa using hfresh
    refine h.hasOutcome_of_front hcurrent hfind fun classes hfront => ?_
    obtain ⟨-, rfl⟩ := mem_of_find? (lookup_eq_ok.1 hlookup)
    have hnext := hfront.next (some above) hcurrent hfind hscan hsuper.symm
      (by simpa using lookup_eq_ok.1 hlookup)
    simp only [hsuper, Option.toList_some] at hnext
    refine (ih hnext).round rfl fun n => ?_
    simp only [interfacesWithin, hscan, hsuper, hlookup]

end ClassTable

end Bytecode
