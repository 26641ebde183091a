import Bytecode.Proofs.ClassSearches
import Mathlib.Data.Finset.Card

/-!
Searches through all that is above a class.

A search visits no class twice, so it ends also where interfaces or superclasses go round. It leaves
out nothing: what is above a visited class has been visited or is still to come. Where nothing goes
round, a class that is skipped has been searched in vain, so the search finds what one finds that
keeps no record of where it has been.

* `implements_decides_reachability`: a class implements what can be reached from it;
* `resolveField_is_plain`: a field is found as by the search that keeps no record.
-/
namespace Bytecode.ClassTable

open List

variable {t : ClassTable} {name desc owner a b : String} {cls : Class}

/-! ### What can be reached -/

section Search

variable {α : Type} {stop : String → Option α} {visit : Class → Option α} {work seen : List String}

/-- A search in vain ends with names that it did not stop at. They hold those it began with, and all
that is above them. -/
theorem exists_closed_of_search (h : t.search stop visit work seen = .ok none)
    (hseen : ∀ n ∈ seen, stop n = none ∧ ∀ m, t.Inherits n m → m ∈ seen ++ work) :
    ∃ all : List String, (∀ n ∈ seen ++ work, n ∈ all) ∧
      ∀ n ∈ all, stop n = none ∧ ∀ m, t.Inherits n m → m ∈ all := by
  fun_induction t.search stop visit work seen with
  | case1 seen =>
    rw [append_nil] at hseen ⊢
    exact ⟨seen, fun n hn => hn, hseen⟩
  | case2 => cases h
  | case3 seen n work _ hagain ih =>
    have hmem : n ∈ seen := by simpa using hagain
    -- A name that comes again is no loss.
    have hdrop : ∀ m ∈ seen ++ n :: work, m ∈ seen ++ work := by
      intro m hm
      rcases mem_append.1 hm with hm | hm
      · exact mem_append_left _ hm
      · rcases mem_cons.1 hm with rfl | hm
        · exact mem_append_left _ hmem
        · exact mem_append_right _ hm
    obtain ⟨all, hall, hclosed⟩ :=
      ih h fun k hk => ⟨(hseen k hk).1, fun m hkm => hdrop m ((hseen k hk).2 m hkm)⟩
    exact ⟨all, fun m hm => hall m (hdrop m hm), hclosed⟩
  | case4 => cases h
  | case5 => cases h
  | case6 seen n work hstop _ cls hfind _ _ ih =>
    have hkept : ∀ m ∈ seen ++ n :: work,
        m ∈ n :: seen ++ (cls.interfaces ++ cls.super.toList ++ work) := by
      intro m hm
      simp only [mem_append, mem_cons] at hm ⊢
      tauto
    obtain ⟨all, hall, hclosed⟩ := ih h (by
      intro k hk
      rcases mem_cons.1 hk with rfl | hk
      · refine ⟨hstop, ?_⟩
        rintro m ⟨cls', hfind', hm⟩
        cases hfind.symm.trans hfind'
        exact mem_append_right _ (mem_append_left _ hm)
      · exact ⟨(hseen k hk).1, fun m hkm => hkept m ((hseen k hk).2 m hkm)⟩)
    exact ⟨all, fun m hm => hall m (hkept m hm), hclosed⟩

end Search

/-- In a table without gaps, whether a class implements an interface can always be told, and it does
exactly if the interface is the class itself or can be reached from it through interfaces and
superclasses. These may go round. -/
theorem implements_decides_reachability (t : ClassTable)
    (hclosed : ∀ a b, t.Inherits a b → t.has b = true) (name iface : String)
    (hname : t.has name = true) :
    ∃ r, t.implements name iface = .ok r ∧
      (r = true ↔ iface = name ∨ Relation.TransGen t.Inherits name iface) := by
  have hholds : t.Holds name := by
    intro above habove
    rcases habove.cases_tail with rfl | ⟨below, -, hstep⟩
    · exact hname
    · exact hclosed below above hstep
  have hup : ∀ a b, Relation.ReflTransGen t.Inherits name a → t.Inherits a b →
      Relation.ReflTransGen t.Inherits name b := fun a b ha hab => ha.tail hab
  have hstart : ∀ n ∈ [name], Relation.ReflTransGen t.Inherits name n :=
    fun n hn => mem_singleton.1 hn ▸ .refl
  obtain ⟨found, hsearch⟩ := (search_fails hup (fun n => if n = iface then some () else none)
    (fun _ => none) [] hstart).exists_ok fun _ => hholds.not_misses
  refine ⟨found.isSome, by rw [implements, hsearch]; rfl, ?_⟩
  rw [← Relation.reflTransGen_iff_eq_or_transGen]
  cases found with
  | some found =>
    refine iff_of_true rfl ?_
    obtain ⟨n, hn, hstop⟩ | ⟨-, -, -, -, hvisit⟩ :=
      search_some hsearch _ hstart fun n cls hn hfind m hm => hup n m hn ⟨cls, hfind, hm⟩
    · have hiface : n = iface := by simpa using hstop
      exact hiface ▸ hn
    · cases hvisit
  | none =>
    refine iff_of_false (by simp) fun hreach => ?_
    obtain ⟨all, hall, hvain⟩ := exists_closed_of_search hsearch (by simp)
    have hmem : ∀ above, Relation.ReflTransGen t.Inherits name above → above ∈ all := by
      intro above habove
      induction habove with
      | refl => exact hall name (by simp)
      | tail _ hstep ih => exact (hvain _ ih).2 _ hstep
    simpa using (hvain iface (hmem iface hreach)).1

/-- Two classes, each the superclass of the other, one of them with an interface. -/
def packTable : ClassTable :=
  ⟨[{ name := "app/Dog", super := some "app/Wolf" },
    { name := "app/Wolf", super := some "app/Dog", interfaces := ["app/Named"] },
    { name := "app/Named", super := none, access := .interfaceBit },
    { name := "app/Cat", super := none }]⟩

/-- A dog implements what a wolf does, and no dog is a cat. -/
theorem implements_decides_reachability_packTable :
    (∀ a b, packTable.Inherits a b → packTable.has b = true) ∧ packTable.has "app/Dog" = true ∧
    packTable.implements "app/Dog" "app/Named" = .ok true ∧
    packTable.implements "app/Dog" "app/Cat" = .ok false := by
  have habove : ∀ cls ∈ packTable.classes, ∀ b ∈ cls.interfaces ++ cls.super.toList,
      packTable.has b = true ∧ b ≠ "app/Cat" := by decide
  have hinherits : ∀ a b, packTable.Inherits a b → packTable.has b = true ∧ b ≠ "app/Cat" := by
    rintro a b ⟨cls, hfind, hb⟩
    exact habove cls (mem_of_find? hfind).1 b hb
  have hdog : packTable.has "app/Dog" = true := by decide
  have hclosed : ∀ a b, packTable.Inherits a b → packTable.has b = true :=
    fun a b hab => (hinherits a b hab).1
  refine ⟨hclosed, hdog, ?_, ?_⟩
  · obtain ⟨r, hr, hiff⟩ :=
      implements_decides_reachability packTable hclosed "app/Dog" "app/Named" hdog
    have hway : Relation.TransGen packTable.Inherits "app/Dog" "app/Named" :=
      .tail (.single ⟨_, rfl, mem_cons_self⟩) ⟨_, rfl, mem_cons_self⟩
    rw [hr, hiff.2 (.inr hway)]
  · obtain ⟨r, hr, hiff⟩ :=
      implements_decides_reachability packTable hclosed "app/Dog" "app/Cat" hdog
    cases r with
    | false => exact hr
    | true =>
      rcases hiff.1 rfl with heq | hway
      · exact absurd heq (by decide)
      · obtain ⟨below, -, hstep⟩ := Relation.TransGen.tail'_iff.1 hway
        exact absurd rfl (hinherits _ _ hstep).2

/-! ### Tables without circles -/

/-- Nothing is above itself, through interfaces or superclasses. -/
def Acyclic (t : ClassTable) : Prop :=
  ∀ name, ¬Relation.TransGen t.Inherits name name

theorem Acyclic.of_rank (rank : String → Nat)
    (hrank : ∀ cls ∈ t.classes, ∀ above ∈ cls.interfaces ++ cls.super.toList,
      rank above < rank cls.name) : t.Acyclic := by
  have hstep : ∀ a b, t.Inherits a b → rank a > rank b := by
    rintro a b ⟨cls, hfind, hb⟩
    obtain ⟨hmem, rfl⟩ := mem_of_find? hfind
    exact hrank cls hmem b hb
  intro name hcircle
  have hlt := Relation.TransGen.lift (p := fun m n : Nat => m > n) rank hstep name name hcircle
  rw [Relation.transGen_eq_self] at hlt
  exact Nat.lt_irrefl _ hlt

theorem Acyclic.wellFounded (hacyclic : t.Acyclic) : WellFounded fun b a => t.Inherits a b := by
  classical
  -- With each step up, fewer classes of the table can be reached: not the one that was left.
  refine Subrelation.wf ?_ (measure fun a => ((t.classes.map Class.name).toFinset.filter
    (Relation.ReflTransGen t.Inherits a)).card).wf
  intro b a hab
  refine Finset.card_lt_card ((Finset.ssubset_iff_of_subset ?_).2 ⟨a, ?_, ?_⟩)
  · exact Finset.monotone_filter_right _ fun n _ hn => Relation.ReflTransGen.head hab hn
  · obtain ⟨cls, hfind, -⟩ := hab
    obtain ⟨hmem, rfl⟩ := mem_of_find? hfind
    exact Finset.mem_filter.2 ⟨mem_toFinset.2 (mem_map_of_mem hmem), .refl⟩
  · exact fun ha => hacyclic a (.head' hab (Finset.mem_filter.1 ha).2)

/-! ### Fields -/

/-- The search for a field that keeps no record of where it has been: in the class, then above it,
first through its interfaces in their order and then through its superclass. The first success ends
it, and so does a class that is missing. -/
def plainField (t : ClassTable) (hacyclic : t.Acyclic) (name desc owner : String) :
    Except HierarchyError (Option (Field × Class)) :=
  match hfind : t.find? owner with
  | none => throw (.classNotFound owner)
  | some c =>
    match c.field? name desc with
    | some f => return some (f, c)
    | none => (c.interfaces ++ c.super.toList).attach.findSomeM? fun ⟨above, habove⟩ =>
      have : t.Inherits owner above := ⟨c, hfind, habove⟩
      plainField t hacyclic name desc above
termination_by hacyclic.wellFounded.wrap owner

/-- A field and the class that declares it, by the search that keeps no record. -/
def resolveFieldPlainly (t : ClassTable) (hacyclic : t.Acyclic) (owner name desc : String) :
    Except HierarchyError (Field × Class) := do
  match ← t.plainField hacyclic name desc owner with
  | some found => return found
  | none => throw (.fieldNotFound owner name desc)

theorem findSomeM?_attach {β : Type} {F : String → Except HierarchyError (Option β)}
    (names : List String) : (names.attach.findSomeM? fun n => F n.1) = names.findSomeM? F := by
  have hmap : ∀ known : List { n // n ∈ names },
      (known.findSomeM? fun n => F n.1) = (known.map Subtype.val).findSomeM? F := by
    intro known
    induction known with
    | nil => rfl
    | cons n known ih => rw [findSomeM?_cons, ih, map_cons, findSomeM?_cons]
  rw [hmap, attach_map_subtype_val]

theorem findSomeM?_replace {β : Type} {F : String → Except HierarchyError (Option β)}
    {n : String} {names : List String} (h : F n = names.findSomeM? F) (rest : List String) :
    (n :: rest).findSomeM? F = (names ++ rest).findSomeM? F := by
  rw [findSomeM?_cons, h]
  clear h
  induction names with
  | nil => rw [findSomeM?_nil, pure_bind, nil_append]
  | cons m names ih =>
    rw [findSomeM?_cons, bind_assoc, cons_append, findSomeM?_cons]
    refine bind_congr fun found => ?_
    cases found with
    | none => exact ih
    | some found => rw [pure_bind]

section Plain

variable {hacyclic : t.Acyclic}

theorem plainField_missing (hfind : t.find? owner = none) :
    t.plainField hacyclic name desc owner = .error (.classNotFound owner) := by
  rw [plainField]
  split
  · rfl
  · cases hfind.symm.trans ‹_›

theorem plainField_declared {f : Field} (hfind : t.find? owner = some cls)
    (hfield : cls.field? name desc = some f) :
    t.plainField hacyclic name desc owner = .ok (some (f, cls)) := by
  rw [plainField]
  split
  · cases hfind.symm.trans ‹_›
  · cases hfind.symm.trans ‹_›
    rw [hfield]
    rfl

theorem plainField_above (hfind : t.find? owner = some cls) (hfield : cls.field? name desc = none) :
    t.plainField hacyclic name desc owner =
      (cls.interfaces ++ cls.super.toList).findSomeM? (t.plainField hacyclic name desc) := by
  rw [plainField]
  split
  · cases hfind.symm.trans ‹_›
  · cases hfind.symm.trans ‹_›
    rw [hfield]
    exact findSomeM?_attach _

/-- A class that was visited comes to the same as names that are next, and none of these leads back
to it. Without such names it was searched in vain. -/
def Searched (hacyclic : t.Acyclic) (name desc : String) (work : List String) (visited : String) :
    Prop :=
  ∃ before after, work = before ++ after ∧
    t.plainField hacyclic name desc visited =
      before.findSomeM? (t.plainField hacyclic name desc) ∧
    ∀ n ∈ before, ¬Relation.ReflTransGen t.Inherits n visited

variable {n visited : String} {work names : List String}

/-- When a class that was visited is next again, its search is over. -/
theorem Searched.in_vain (h : Searched hacyclic name desc (n :: work) n) :
    t.plainField hacyclic name desc n =
      ([] : List String).findSomeM? (t.plainField hacyclic name desc) := by
  obtain ⟨before, after, hwork, hplain, hapart⟩ := h
  cases before with
  | nil => exact hplain
  | cons m before =>
    cases hwork
    exact absurd .refl (hapart n mem_cons_self)

/-- The names that come to the same as the next one take its place. -/
theorem Searched.replace (h : Searched hacyclic name desc (n :: work) visited)
    (hn : t.plainField hacyclic name desc n = names.findSomeM? (t.plainField hacyclic name desc))
    (hnames : ∀ m ∈ names, t.Inherits n m) :
    Searched hacyclic name desc (names ++ work) visited := by
  obtain ⟨before, after, hwork, hplain, hapart⟩ := h
  cases before with
  | nil => exact ⟨[], names ++ work, rfl, hplain, by simp⟩
  | cons m before =>
    cases hwork
    refine ⟨names ++ before, after, by simp, hplain.trans (findSomeM?_replace hn before), ?_⟩
    intro m hm
    rcases mem_append.1 hm with hm | hm
    · exact fun hreach => hapart n mem_cons_self (.head (hnames m hm) hreach)
    · exact hapart m (mem_cons_of_mem _ hm)

end Plain

/-- The search for a field comes to what the names to be searched come to without a record. -/
theorem plainField_of_search (hacyclic : t.Acyclic) (name desc : String) (work seen : List String)
    (hseen : ∀ visited ∈ seen, Searched hacyclic name desc work visited) :
    work.findSomeM? (t.plainField hacyclic name desc) = t.search (fun _ => none)
      (fun c => (c.field? name desc).map (·, c)) work seen := by
  fun_induction t.search (fun _ => none) (fun c => (c.field? name desc).map (·, c)) work seen with
  | case1 => rfl
  | case2 _ _ _ _ hstop => cases hstop
  | case3 seen n work _ hagain ih =>
    -- The class is skipped, and searching it once more would find nothing.
    have hn := (hseen n (by simpa using hagain)).in_vain
    rw [findSomeM?_replace hn, nil_append]
    exact ih fun visited hv => (hseen visited hv).replace hn (by simp)
  | case4 seen n work _ _ hnone =>
    rw [findSomeM?_cons, plainField_missing hnone]
    rfl
  | case5 seen n work _ _ cls hfind _ found hvisit =>
    obtain ⟨f, hf, rfl⟩ := Option.map_eq_some_iff.1 hvisit
    rw [findSomeM?_cons, plainField_declared hfind hf]
    rfl
  | case6 seen n work _ _ cls hfind _ hvisit ih =>
    have hnames : ∀ m ∈ cls.interfaces ++ cls.super.toList, t.Inherits n m :=
      fun m hm => ⟨cls, hfind, hm⟩
    have hn : t.plainField hacyclic name desc n = _ :=
      plainField_above hfind (Option.map_eq_none_iff.1 hvisit)
    rw [findSomeM?_replace hn]
    refine ih fun visited hv => ?_
    rcases mem_cons.1 hv with rfl | hv
    -- The class itself comes to what is above it, from where no way leads back.
    · refine ⟨_, work, rfl, hn, fun m hm hreach => ?_⟩
      exact hacyclic visited (.head' (hnames m hm) hreach)
    · exact (hseen visited hv).replace hn hnames

/-- Where neither interfaces nor superclasses go round, the search for a field that keeps no record
ends, and it finds the same field in the same class or fails in the same way. Classes may be
missing. -/
theorem resolveField_is_plain (t : ClassTable) (hacyclic : t.Acyclic)
    (owner name desc : String) :
    t.resolveField owner name desc = t.resolveFieldPlainly hacyclic owner name desc := by
  have hsingle : [owner].findSomeM? (t.plainField hacyclic name desc) =
      t.plainField hacyclic name desc owner := by
    rw [findSomeM?_cons]
    refine Eq.trans (bind_congr fun found => ?_) (bind_pure _)
    cases found with
    | none => rfl
    | some found => rfl
  have hplain := plainField_of_search hacyclic name desc [owner] [] (by simp)
  rw [resolveFieldPlainly, resolveField, ← hsingle, hplain]
  cases t.search (fun _ => none) (fun c => (c.field? name desc).map (·, c)) [owner] [] with
  | error e => rfl
  | ok found =>
    cases found with
    | none => rfl
    | some found => rfl

/-- A class whose two interfaces have one above them in common. Its superclass declares a field and
extends a class that is missing. -/
def tagTable : ClassTable :=
  ⟨[{ name := "app/Dog", super := some "app/Pet", interfaces := ["app/Named", "app/Tagged"] },
    { name := "app/Named", super := none, interfaces := ["app/Marked"], access := .interfaceBit },
    { name := "app/Tagged", super := none, interfaces := ["app/Marked"], access := .interfaceBit },
    { name := "app/Marked", super := none, access := .interfaceBit },
    { name := "app/Pet", super := some "app/Gone", fields := [⟨"age", "I", .publicBit⟩] }]⟩

/-- The age of a dog is found in its superclass, after the shared interface was searched in vain.
For its weight the search goes on to the missing class. -/
theorem resolveField_is_plain_tagTable : tagTable.Acyclic ∧
    (tagTable.resolveField "app/Dog" "age" "I").toOption.map (·.2.name) = some "app/Pet" ∧
    tagTable.resolveField "app/Dog" "weight" "I" = .error (.classNotFound "app/Gone") := by
  have hacyclic : tagTable.Acyclic := .of_rank (fun name =>
    if name = "app/Dog" then 3 else if name = "app/Gone" ∨ name = "app/Marked" then 0 else 1)
    (by decide)
  have hshared : ∀ name, tagTable.plainField hacyclic name "I" "app/Marked" =
      ([] : List String).findSomeM? (tagTable.plainField hacyclic name "I") :=
    fun name => (plainField_above rfl rfl).trans rfl
  have hvain : ∀ name, ∀ n ∈ ["app/Named", "app/Tagged"], tagTable.plainField hacyclic name "I" n =
      ([] : List String).findSomeM? (tagTable.plainField hacyclic name "I") := by
    intro name
    simp only [forall_mem_cons]
    refine ⟨?_, ?_, by simp⟩
    all_goals
      refine (plainField_above rfl rfl).trans ?_
      exact findSomeM?_replace (hshared name) []
  have hdog : ∀ name, tagTable.plainField hacyclic name "I" "app/Dog" =
      ["app/Pet"].findSomeM? (tagTable.plainField hacyclic name "I") := by
    intro name
    refine (plainField_above rfl rfl).trans ?_
    exact (findSomeM?_replace (hvain name _ (by simp)) _).trans
      (findSomeM?_replace (hvain name _ (by simp)) _)
  have hage := resolveField_is_plain tagTable hacyclic "app/Dog" "age" "I"
  have hweight := resolveField_is_plain tagTable hacyclic "app/Dog" "weight" "I"
  have hpet : tagTable.plainField hacyclic "weight" "I" "app/Pet" =
      ["app/Gone"].findSomeM? (tagTable.plainField hacyclic "weight" "I") :=
    (plainField_above rfl rfl).trans rfl
  rw [resolveFieldPlainly, hdog, findSomeM?_cons, plainField_declared rfl rfl] at hage
  rw [resolveFieldPlainly, hdog, findSomeM?_replace hpet, append_nil, findSomeM?_cons,
    plainField_missing rfl] at hweight
  exact ⟨hacyclic, by rw [hage]; rfl, hweight⟩

end Bytecode.ClassTable
