import Mathlib.Data.List.Nodup
import Bytecode.Proofs.Records
import Bytecode.Proofs.Registration

/-!
Records are the same bytes exactly when they hold the same.

That different contents give different records is `Readable`. Here are the other half, which says
that a record depends on nothing else, and the tables, whose records do not depend on the order in
which the classes were registered.

Main statement: `records_exact`, both halves for methods and tables, and that records of different
kinds differ.
-/
namespace Bytecode.Fingerprint

/-! ### Methods -/

theorem list_map {α β : Type} (record : β → List UInt8) (f : α → β) (items : List α) :
    list record (items.map f) = list (fun a => record (f a)) items := by
  unfold list
  rw [List.length_map, List.flatMap_map]

/-- The record of a method is known from the method and from the header and the constants of its
class, and tells them. -/
theorem methodRecord_eq_iff {c d : Class} {m n : Method} (hm : BoundedMethod c m)
    (hn : BoundedMethod d n) :
    methodRecord c m = methodRecord d n ↔
      c.name = d.name ∧ c.superName = d.superName ∧ c.interfaces = d.interfaces ∧
        c.access = d.access ∧ c.pool = d.pool ∧ m = n := by
  constructor
  · intro heq
    have hview := readable_methodRecord.inj (a := (c, m)) (b := (d, n)) hm hn heq
    simpa only [Prod.mk.injEq, and_assoc] using hview
  · rintro ⟨hname, hsuper, hinterfaces, haccess, hpool, rfl⟩
    have hheader : header c = header d := by
      unfold header
      rw [hname, hsuper, hinterfaces, haccess]
    unfold methodRecord
    rw [hheader, hpool]

/-! ### Tables -/

/-- The record of a class that shows this to others. -/
def shownRecord (s : String × String × List String × AccessFlags × List Field ×
    List (String × String × AccessFlags)) : List UInt8 :=
  string s.1 ++ string s.2.1 ++ list string s.2.2.1 ++ access s.2.2.2.1 ++
    list (fun f : Field => signature f.name f.descriptor f.access) s.2.2.2.2.1 ++
    list (fun m => signature m.1 m.2.1 m.2.2) s.2.2.2.2.2

theorem shownRecord_shown (c : Class) : shownRecord (shown c) = classRecord c := by
  unfold classRecord header
  rw [shownRecord, shown, list_map]
  rfl

theorem hierarchyRecord_eq (t : ClassTable) :
    hierarchyRecord t = record 'H' (list shownRecord (t.sorted.map shown)) := by
  rw [list_map]
  simp only [shownRecord_shown]
  rfl

theorem sorted_shown_eq_iff {t u : ClassTable} (ht : (t.classes.map Class.name).Nodup)
    (hu : (u.classes.map Class.name).Nodup) :
    t.sorted.map shown = u.sorted.map shown ↔
      ∀ s, s ∈ t.classes.map shown ↔ s ∈ u.classes.map shown := by
  have hperm : ∀ t : ClassTable, (t.sorted.map shown).Perm (t.classes.map shown) :=
    fun t => (List.mergeSort_perm t.classes _).map shown
  constructor
  · intro heq s
    rw [← (hperm t).mem_iff, ← (hperm u).mem_iff, heq]
  · intro hmem
    -- Classes that show the same have the same name, so both lists are without repetitions.
    have hnodup : ∀ t : ClassTable, (t.classes.map Class.name).Nodup →
        (t.classes.map shown).Nodup := by
      intro t ht
      have hnames : t.classes.map Class.name = (t.classes.map shown).map Prod.fst := by
        rw [List.map_map]
        rfl
      rw [hnames] at ht
      exact ht.of_map _
    have hboth : (t.classes.map shown).Perm (u.classes.map shown) :=
      (List.perm_ext_iff_of_nodup (hnodup t ht) (hnodup u hu)).2 hmem
    have hsorted : ∀ t : ClassTable, (t.sorted.map shown).Pairwise fun a b => a.1 ≤ b.1 :=
      fun t => List.pairwise_map.2 t.pairwise_sorted
    refine List.Perm.eq_of_pairwise ?_ (hsorted t) (hsorted u)
      ((hperm t).trans (hboth.trans (hperm u).symm))
    intro a b ha hb hab hba
    -- In the second table there is only one class of this name.
    obtain ⟨c, hc, rfl⟩ := List.mem_map.1 (hboth.mem_iff.1 ((hperm t).mem_iff.1 ha))
    obtain ⟨d, hd, rfl⟩ := List.mem_map.1 ((hperm u).mem_iff.1 hb)
    have hname : c.name = d.name := String.le_antisymm hab hba
    rw [List.inj_on_of_nodup_map hu hc hd hname]

/-- The record of a table is known from the set of what its classes show, and tells it. -/
theorem hierarchyRecord_eq_iff {cs ds : List Class}
    (hcs : BoundedTable (.registered cs)) (hds : BoundedTable (.registered ds)) :
    hierarchyRecord (.registered cs) = hierarchyRecord (.registered ds) ↔
      ∀ s, s ∈ (ClassTable.registered cs).classes.map shown ↔
        s ∈ (ClassTable.registered ds).classes.map shown := by
  rw [← sorted_shown_eq_iff (ClassTable.names_nodup cs) (ClassTable.names_nodup ds)]
  constructor
  · intro heq
    exact (readable_hierarchyRecord readable_classRecord).inj hcs hds heq
  · intro heq
    rw [hierarchyRecord_eq, hierarchyRecord_eq, heq]

/-! ### All records -/

/-- Where lengths fit in four bytes and integers in eight, the record of a method holds the header
and the constants of its class and the method, no more and no less; the record of the classes that
were registered holds the set of what they show to others, whatever their order; and no record of a
method, of classes or of a key is one of another kind. -/
theorem records_exact :
    (∀ (c d : Class) (m n : Method), BoundedMethod c m → BoundedMethod d n →
      (methodRecord c m = methodRecord d n ↔
        c.name = d.name ∧ c.superName = d.superName ∧ c.interfaces = d.interfaces ∧
          c.access = d.access ∧ c.pool = d.pool ∧ m = n)) ∧
    (∀ cs ds : List Class, BoundedTable (.registered cs) → BoundedTable (.registered ds) →
      (hierarchyRecord (.registered cs) = hierarchyRecord (.registered ds) ↔
        ∀ s, s ∈ (ClassTable.registered cs).classes.map shown ↔
          s ∈ (ClassTable.registered ds).classes.map shown)) ∧
    ∀ (c : Class) (m : Method) (t : ClassTable) (method hierarchy : List UInt8)
      (options : VerifyOptions), methodRecord c m ≠ hierarchyRecord t ∧
        methodRecord c m ≠ keyRecord method hierarchy options ∧
        hierarchyRecord t ≠ keyRecord method hierarchy options := by
  refine ⟨fun c d m n => methodRecord_eq_iff, fun cs ds => hierarchyRecord_eq_iff, ?_⟩
  -- The second byte of a record is the letter of its kind.
  have hkind : ∀ {kind kind' : Char} {parts parts' : List UInt8},
      kind.toUInt8 ≠ kind'.toUInt8 → record kind parts ≠ record kind' parts' := by
    intro kind kind' parts parts' hne heq
    exact hne (List.cons.inj (List.cons.inj heq).2).1
  intro c m t method hierarchy options
  exact ⟨hkind (by decide), hkind (by decide), hkind (by decide)⟩

/-- A dog whose food is a constant. -/
def fedDog (food : String) : Class where
  name := "app/Dog"
  super := some "app/Pet"
  interfaces := ["app/Named"]
  pool := ((ConstantPool.empty.addUtf8 food).1.addLong (-1)).1

/-- A method with one handler. -/
def barkAt (name descriptor : String) : Method where
  name
  descriptor
  access := .publicBit
  maxStack := 2
  code := [0xb1]
  handlers := [⟨0, 1, 0, 0⟩]

/-- A pet that shows less than a dog does. -/
def plainPet : Class where
  name := "app/Pet"
  super := none
  methods := [barkAt "bark" "()V"]

/-- Letters that move from the name of a method to its descriptor are noticed, and so is another
constant. The order of registration makes no difference, with a class that is replaced. -/
theorem records_exact_fedDog :
    BoundedMethod (fedDog "bone") (barkAt "bark" "()V") ∧
      methodRecord (fedDog "bone") (barkAt "bark" "()V") ≠
        methodRecord (fedDog "bone") (barkAt "bark(" ")V") ∧
      methodRecord (fedDog "bone") (barkAt "bark" "()V") ≠
        methodRecord (fedDog "meat") (barkAt "bark" "()V") ∧
      BoundedTable (.registered [fedDog "bone", plainPet]) ∧
      hierarchyRecord (.registered [fedDog "bone", plainPet]) =
        hierarchyRecord (.registered [plainPet, { plainPet with name := "app/Dog" },
          fedDog "meat"]) := by
  have hbark : BoundedMethod (fedDog "bone") (barkAt "bark" "()V") := by decide +kernel
  have htable : BoundedTable (.registered [fedDog "bone", plainPet]) := by decide +kernel
  refine ⟨hbark, ?_, ?_, htable, ?_⟩
  · intro heq
    have hsame := (records_exact.1 _ _ _ _ hbark (by decide +kernel)).1 heq
    exact absurd hsame.2.2.2.2.2 (by decide)
  · intro heq
    have hsame := (records_exact.1 _ _ _ _ hbark (by decide +kernel)).1 heq
    exact absurd (congrArg ConstantPool.slots hsame.2.2.2.2.1) (by decide +kernel)
  · refine (records_exact.2.1 _ _ htable (by decide +kernel)).2 fun s => ?_
    have hlater : (ClassTable.registered [plainPet, { plainPet with name := "app/Dog" },
        fedDog "meat"]).classes = [plainPet, fedDog "meat"] := by decide +kernel
    rw [hlater, show (ClassTable.registered [fedDog "bone", plainPet]).classes =
      [fedDog "bone", plainPet] by decide +kernel]
    exact (List.Perm.swap _ _ _).mem_iff

end Bytecode.Fingerprint
