import Bytecode.Proofs.MergeOrder
import Bytecode.Proofs.NamedClasses

/-!
A frame that arrives a second time changes nothing.

A merge takes up all that the other side says: what comes of it stays as it is when the same is
merged into it once more. The classes of the frame that arrives must be there for that, while of the
frame that is stored nothing need be known. So after a node was executed, its stored frame says all
that the frame says on which it was executed.

Main statement: `execute_idempotent`, a second execution changes nothing.
-/
namespace Bytecode

open ValueType FrameTable Hierarchy

/-! ### Joins -/

/-- An array that cannot be read joins with others at the root, and so does the root with it. -/
theorem Hierarchy.join_again_of_unreadable {h : Hierarchy} {a d : ValueType} {name : String}
    (harray : namesArray name = true) (hnone : (reference name).component? = none)
    (hd : h.join a (.reference name) = .ok d) : h.join d (.reference name) = .ok d := by
  have hroot : ∀ {a : ValueType}, a ≠ .reference name → a ≠ .null →
      h.join a (.reference name) = .ok (.reference objectClass) := by
    intro a hne hnull
    refine join_root hne hnull (by simp) (.inr harray) ?_
    intro ca cb _ hcb
    cases hnone.symm.trans hcb
  by_cases hsame : a = .reference name
  · rw [hsame, join_self] at hd
    cases hd
    exact join_self _
  by_cases hnull : a = .null
  · rw [hnull, (join_null _).1] at hd
    cases hd
    exact join_self _
  cases (hroot hsame hnull).symm.trans hd
  refine hroot ?_ (by simp)
  rintro ⟨⟩
  cases harray

namespace ClassTable

variable {t : ClassTable} {s u : FieldType} {a b d : ValueType} {name : String}

/-- The type `s` stays as it is when `u` is joined to it. -/
structure Absorbs (t : ClassTable) (s u : FieldType) : Prop where
  isObject : s.IsObject
  dims : s.dims ≤ u.dims
  join : t.hierarchy.join (ofFieldType s) (ofFieldType u) = .ok (ofFieldType s)

theorem absorbs_self (hu : u.IsObject) : t.Absorbs u u where
  isObject := hu
  dims := Nat.le_refl _
  join := join_self _

theorem Absorbs.array (hs : t.Absorbs s u) (hu : u.array.IsObject) (href : u.isReference = true) :
    t.Absorbs s.array u.array := by
  have hobject := hu.of_array href
  have hdims : u.dims ≤ 255 := Nat.le_of_succ_le_succ hu.dims
  have hsdims : s.dims ≤ 255 := Nat.le_trans hs.dims hdims
  refine ⟨⟨s.isReference_array, FieldType.named_array.2 hs.isObject.named, ?_⟩, ?_, ?_⟩
  · exact Nat.succ_le_succ hsdims
  · exact Nat.succ_le_succ hs.dims
  · rw [join_arrays hs.isObject hobject hsdims hdims, hs.join]
    exact congrArg Except.ok (arrayOf_ofFieldType hs.isObject)

namespace IsTree

variable (ht : t.IsTree)
include ht

theorem isObject_of_knows (href : u.isReference = true) (hknows : t.Knows u)
    (hdims : u.dims ≤ 256) : u.IsObject where
  isReference := href
  named := fun name hname => ht.isClassName (hknows name hname)
  dims := hdims

theorem absorbs_root (hu : u.IsObject) (hknows : t.Knows u) :
    t.Absorbs ⟨.object objectClass, 0⟩ u := by
  refine ⟨.of_class isClassName_objectClass, Nat.zero_le _, ?_⟩
  rcases hu.cases with ⟨name, -, rfl⟩ | ⟨u, rfl, -⟩
  · by_cases hroot : objectClass = name
    · rw [hroot]
      exact join_self _
    · obtain ⟨d, hd⟩ := ht.exists_joins_class hroot ht.hasRoot (hknows name rfl)
      obtain ⟨above, rfl, rfl | rfl | hsub⟩ := under_class hd.left
      · exact hd.join
      · exact hd.join
      · rw [ht.eq_root hsub] at hd
        exact hd.join
  · rw [ofFieldType_class, ofFieldType_array]
    have harray := isArray_ofFieldType_array u
    rw [ofFieldType_array] at harray
    refine join_root ?_ (by simp) (by simp) (.inr harray) ?_
    · rintro heq
      rw [← heq] at harray
      cases harray
    · intro ca cb hca
      obtain ⟨_, ⟨⟩, hname⟩ := component?_eq_some hca
      cases hname

variable (hclasses : t.ExtendsClasses)
include hclasses

theorem absorbs_of_joins (hu : t.Refers u) {e : FieldType} (he : t.Joins s u e) :
    t.Absorbs e u := by
  obtain ⟨f, hf⟩ := ht.exists_joins he.refers hu
  -- The second join is above the first, and under it since the first is above both.
  have hfe := hf.least e (hclasses.sealed e) (.refl e) he.right
  obtain rfl := ht.under_antisymm hf.left hfe
  exact ⟨ht.isObject he.refers, he.right.dims_le, hf.join⟩

theorem exists_absorbs_class {x y : String} (hxy : x ≠ y) (hx : namesArray x = false)
    (hy : t.has y = true)
    (hd : t.hierarchy.joinClasses (.reference x) (.reference y) = .ok d) :
    ∃ s, d = ofFieldType s ∧ t.Absorbs s ⟨.object y, 0⟩ := by
  have hhas : t.has x = true := by
    simp only [joinClasses, bind_eq_ok] at hd
    obtain ⟨_, hinterface, -⟩ := hd
    obtain ⟨cls, hfind, -⟩ := knownInterface_eq_ok.1 hinterface
    exact has_iff.2 ⟨cls, hfind⟩
  obtain ⟨e, he⟩ := ht.exists_joins_class hxy hhas hy
  rw [← join_classes hxy hx (ht.isClassName hy).namesArray] at hd
  exact ⟨e, Except.ok.inj (hd.symm.trans he.join),
    ht.absorbs_of_joins hclasses (refers_class hy) he⟩

/-- Whatever a type of the table is joined to, the join stays as it is when it is joined once
more. -/
theorem exists_absorbs (ha : a.isReference = true) (hu : u.IsObject) (hknows : t.Knows u)
    (hd : t.hierarchy.join a (ofFieldType u) = .ok d) : ∃ s, d = ofFieldType s ∧ t.Absorbs s u := by
  -- Along the join; only the type that is joined is known, so it is the one that is followed down.
  generalize hb : ofFieldType u = b at hd
  fun_induction t.hierarchy.join a b generalizing u d with
  | case1 b =>
    cases hd
    exact ⟨u, hb.symm, absorbs_self hu⟩
  | case2 b =>
    cases hd
    exact ⟨u, hb.symm, absorbs_self hu⟩
  | case3 =>
    obtain ⟨name, hname⟩ := ofFieldType_of_isReference hu.isReference
    cases hb.symm.trans hname
  | case4 a b _ _ _ _ ca cb hca hcb href _ ih =>
    obtain ⟨hra, hrb⟩ := Bool.and_eq_true_iff.1 href
    obtain ⟨e, he, rfl⟩ := map_eq_ok.1 hd
    rcases hu.cases with ⟨name, hname, rfl⟩ | ⟨u, rfl, -⟩
    · -- A class has no components.
      rw [← hb] at hcb
      obtain ⟨_, ⟨⟩, harray⟩ := component?_eq_some hcb
      cases hname.namesArray.symm.trans harray
    · rw [← hb] at hcb
      obtain rfl := eq_of_component?_array hcb
      obtain ⟨s, rfl, hs⟩ := ih (isReference_ofFieldType hra) (hu.of_array hrb) hknows rfl he
      exact ⟨s.array, arrayOf_ofFieldType hs.isObject, hs.array hu hrb⟩
  | case5 | case6 =>
    cases hd
    exact ⟨_, rfl, ht.absorbs_root hu hknows⟩
  | case7 a b hne hna _ harray =>
    obtain ⟨x, rfl⟩ := eq_reference_of_isReference ha hna
    rw [Bool.or_eq_true, not_or, Bool.not_eq_true, Bool.not_eq_true] at harray
    rcases hu.cases with ⟨y, -, rfl⟩ | ⟨u, rfl, -⟩
    · obtain rfl : b = .reference y := hb.symm
      exact ht.exists_absorbs_class hclasses (fun heq => hne (congrArg reference heq)) harray.1
        (hknows y rfl) hd
    · rw [← hb, isArray_ofFieldType_array] at harray
      cases harray.2

/-- Whatever a value is joined to, the join stays as it is when the value is joined once more. The
classes of the value must be there: an array and a missing class join at the root, but the root and
the missing class do not join. -/
theorem join_again (ha : a.isReference = true) (hb : b.isReference = true)
    (hover : b.Over fun name => t.has name = true) (hd : t.hierarchy.join a b = .ok d) :
    t.hierarchy.join d b = .ok d := by
  -- A value is null, an array that cannot be read, or of a type of the table.
  by_cases hnull : b = .null
  · rw [hnull]
    exact (join_null d).2
  obtain ⟨name, rfl⟩ := eq_reference_of_isReference hb hnull
  by_cases harray : namesArray name = true
  · cases hcomponent : (reference name).component? with
    | none => exact join_again_of_unreadable harray hcomponent hd
    | some c =>
      obtain ⟨-, hdims, hname⟩ := readable_of_component? hcomponent
      have hknows : t.Knows c.array := by
        intro element helement
        exact hover element ((named?_of_component? hcomponent).trans helement)
      rw [← ofFieldType_array] at hname
      rw [hname] at hd ⊢
      obtain ⟨s, rfl, hs⟩ := ht.exists_absorbs hclasses ha
        (ht.isObject_of_knows c.isReference_array hknows (Nat.succ_le_succ hdims)) hknows hd
      exact hs.join
  · rw [Bool.not_eq_true] at harray
    have hknows := (refers_class ((over_class harray).1 hover)).knows
    obtain ⟨s, rfl, hs⟩ := ht.exists_absorbs hclasses ha
      (ht.isObject_of_knows rfl hknows (Nat.zero_le _)) hknows hd
    exact hs.join

end IsTree

end ClassTable

/-! ### Merges -/

theorem mergeEntries_again {merge : Nat → ValueType → ValueType → Except Failure ValueType}
    {mine theirs r : List ValueType} {changed : Bool}
    (hagain : ∀ i a d, ∀ b ∈ theirs, merge i a b = .ok d → merge i d b = .ok d)
    (h : mergeEntries merge mine theirs = (r, .ok changed)) :
    mergeEntries merge r theirs = (r, .ok false) := by
  -- The loop is followed from any number on, and after anything merged before.
  suffices hgo : ∀ i merged before,
      mergeEntries.go merge i merged before mine theirs = (r, .ok changed) →
        ∃ new, r = merged.reverse ++ new ∧ ∀ merged', mergeEntries.go merge i merged' false new
          theirs = (merged'.reverse ++ new, .ok false) by
    obtain ⟨new, rfl, hnew⟩ := hgo 0 [] false h
    exact hnew []
  clear h
  intro i merged before h
  induction mine generalizing i merged before theirs with
  | nil =>
    cases h
    exact ⟨[], rfl, fun _ => rfl⟩
  | cons a mine ih =>
    cases theirs with
    | nil =>
      cases h
      exact ⟨a :: mine, rfl, fun _ => rfl⟩
    | cons b theirs =>
      rw [mergeEntries.go] at h
      split at h
      · next d hd =>
        obtain ⟨new, rfl, hnew⟩ := ih (fun i a d b hb => hagain i a d b (List.mem_cons_of_mem _ hb))
          _ _ _ h
        refine ⟨d :: new, by simp, fun merged' => ?_⟩
        rw [mergeEntries.go, hagain i a d b List.mem_cons_self hd]
        simp only [bne_self_eq_false, Bool.or_self, hnew, List.reverse_cons, List.append_assoc,
          List.singleton_append]
      · cases h

namespace Hierarchy

variable {h : Hierarchy} {a b d : ValueType}

theorem mergeStackEntry_self (h : Hierarchy) (i : Nat) (a : ValueType) :
    h.mergeStackEntry i a a = .ok a :=
  if_pos rfl

theorem mergeLocal_self (h : Hierarchy) (i : Nat) (a : ValueType) : h.mergeLocal i a a = .ok a :=
  if_pos rfl

theorem merge_references (i : Nat) (ha : a.isReference = true) (hb : b.isReference = true)
    (hd : h.join a b = .ok d) : h.mergeStackEntry i a b = .ok d ∧ h.mergeLocal i a b = .ok d := by
  have hmarker : ∀ {v : ValueType}, v.isReference = true → v.isUninitialized = false := by
    intro v hv
    by_contra hmarker
    rw [Bool.not_eq_false] at hmarker
    cases (isReference_of_isUninitialized hmarker).symm.trans hv
  by_cases hab : a = b
  · subst hab
    cases (join_self a).symm.trans hd
    exact ⟨mergeStackEntry_self h i a, mergeLocal_self h i a⟩
  · have hjoin : h.joinReferences a b = .ok d := mapError_eq_ok.2 hd
    simp [mergeStackEntry, mergeLocal_eq i (hmarker ha) (hmarker hb), hmarker ha, hmarker hb, ha,
      hb, hab, hjoin]

theorem mergeLocal_unknown (i : Nat) (hb : b.isUninitialized = false) :
    h.mergeLocal i .unknown b = .ok .unknown := by
  rw [mergeLocal_eq i rfl hb]
  split
  · rfl
  · rfl

theorem isUninitialized_of_mergeLocal {i : Nat} (hab : a ≠ b) (hd : h.mergeLocal i a b = .ok d) :
    b.isUninitialized = false := by
  by_contra hmarker
  rw [Bool.not_eq_false] at hmarker
  simp only [mergeLocal, if_neg hab, if_pos hmarker] at hd
  split at hd
  · cases hd
  · cases hd

end Hierarchy

section Tree

variable {t : ClassTable} (ht : t.IsTree) (hclasses : t.ExtendsClasses) {a b d : ValueType}
include ht hclasses

theorem mergeStackEntry_again {i : Nat} (hover : b.Over fun name => t.has name = true)
    (hd : t.hierarchy.mergeStackEntry i a b = .ok d) :
    t.hierarchy.mergeStackEntry i d b = .ok d := by
  rcases Frame.mergeStackEntry_ok hd with ⟨rfl, rfl⟩ | ⟨ha, hb, hjoin⟩
  · exact hd
  · have href := (isReference_join ha hb hjoin).1
    exact (merge_references i href hb (ht.join_again hclasses ha hb hover hjoin)).1

theorem mergeLocal_again {i : Nat} (hover : b.Over fun name => t.has name = true)
    (hd : t.hierarchy.mergeLocal i a b = .ok d) : t.hierarchy.mergeLocal i d b = .ok d := by
  rcases Frame.mergeLocal_ok hd with ⟨rfl, rfl⟩ | rfl | ⟨-, rfl⟩ | ⟨ha, hb, hjoin⟩
  · exact hd
  · by_cases hab : a = b
    · subst hab
      cases (mergeLocal_self _ i a).symm.trans hd
      exact hd
    · exact mergeLocal_unknown i (isUninitialized_of_mergeLocal hab hd)
  · exact mergeLocal_self _ i _
  · have href := (isReference_join ha hb hjoin).1
    exact (merge_references i href hb (ht.join_again hclasses ha hb hover hjoin)).2

/-- A frame whose classes are there, merged into another once more, leaves it as it is. -/
theorem Frame.merge_again {f g m : Frame} (hg : g.Over fun name => t.has name = true)
    {changed : Bool} (hm : merge t.hierarchy f g = (m, .ok changed)) :
    merge t.hierarchy m g = (m, .ok false) := by
  obtain ⟨_, _, hstack, hlocals, hflag, -⟩ := merge_eq_ok_iff.1 hm
  obtain ⟨hsize, hslots, -, hentries⟩ := mergeStack_eq_ok.1 hstack
  obtain ⟨hcount, hvalues⟩ := mergeLocals_eq_ok.1 hlocals
  -- Entries keep their sizes, so the stacks do.
  obtain ⟨⟨hsizes, -⟩, ⟨hcounts, -⟩, -, -⟩ := merge_eq_ok (Q := fun _ _ => True)
    (R := fun _ _ => True) (S := fun _ _ => True) hm
    (fun i a b d hd => ⟨MethodContext.size_of_mergeStackEntry hd, trivial⟩)
    fun i a b d _ => ⟨trivial, trivial⟩
  refine merge_eq_ok_iff.2 ⟨false, false, mergeStack_eq_ok.2 ⟨?_, ?_, rfl, ?_⟩,
    mergeLocals_eq_ok.2 ⟨?_, ?_⟩, ?_, ?_⟩
  · exact hsizes.length_eq.symm.trans hsize
  · rw [← hslots, Stack.slots_eq, Stack.slots_eq]
    exact (MethodContext.slotsOf_of_forall₂ hsizes).1
  · refine mergeEntries_again (fun i a d b hb hd => ?_) hentries
    exact mergeStackEntry_again ht hclasses (hg b (.inl (List.mem_reverse.1 hb))) hd
  · simpa using hcounts.length_eq.symm.trans (by simpa using hcount)
  · refine mergeEntries_again (fun i a d b hb hd => ?_) hvalues
    exact mergeLocal_again ht hclasses (hg b (.inr (Array.mem_toList_iff.1 hb))) hd
  · rw [hflag, Bool.or_assoc, Bool.or_self]
  · rw [hflag]
    cases g.thisUninitialized <;> simp

end Tree

theorem Frame.merge_self (h : Hierarchy) (f : Frame) : merge h f f = (f, .ok false) :=
  merge_eq_ok_iff.2 ⟨false, false,
    mergeStack_eq_ok.2 ⟨rfl, rfl, rfl, mergeEntries_go_self h.mergeStackEntry_self 0 [] _ _⟩,
    mergeLocals_eq_ok.2 ⟨rfl, mergeEntries_go_self h.mergeLocal_self 0 [] _ _⟩,
    (Bool.or_self _).symm, by simp⟩

/-! ### Executions -/

namespace MethodContext

variable {c : MethodContext} {g : FlowGraph} {n : Nat} {f : Frame}

/-- The states that executions of nodes lead to, on any frames and after any chains, whether or not
they succeed. -/
inductive ByExecutions (c : MethodContext) (g : FlowGraph) : FlowState → Prop
  | start : ByExecutions c g (startState g)
  | execute (n : Nat) (f : Frame) (chain : CallChain) {s : FlowState} :
      ByExecutions c g s → ByExecutions c g (c.execute g n f chain s).1

variable {key : CallKey} {s s' : FlowState} {stored : Frame}

theorem Executed.rows {r : Except Failure Bool} (h : Executed c g n f key s s' r) :
    s'.inputs.rows.size = s.inputs.rows.size := by
  cases h with
  | absorbed _ _ inputs => rw [inputs]
  | clash _ _ inputs => rw [inputs, rows_size_insert]
  | refused _ _ inputs => rw [inputs, rows_size_insert]
  | broken _ _ _ inputs => rw [inputs, rows_size_insert]
  | ran _ _ _ inputs => rw [inputs, rows_size_insert]

theorem ByExecutions.rows (h : ByExecutions c g s) : s.inputs.rows.size = g.size := by
  induction h with
  | start => simp [startState, empty]
  | execute n f chain _ ih => rw [(executed_execute (Prod.eta _).symm).rows, ih]

/-- After an execution that succeeds, the stored frame absorbs the frame that arrived. -/
theorem Executed.absorbs {t : ClassTable} (ht : t.IsTree) (hclasses : t.ExtendsClasses)
    (hc : c.hierarchy = t.hierarchy) {changed : Bool} (hn : n < s.inputs.rows.size)
    (hf : f.Over fun name => t.has name = true) (h : Executed c g n f key s s' (.ok changed)) :
    ∃ stored, s'.inputs.get? n key = some stored ∧
      Frame.merge c.hierarchy stored f = (stored, .ok false) := by
  cases h with
  | absorbed stored merge inputs => exact ⟨_, by rw [inputs, stored], merge⟩
  | ran arrives _ _ inputs =>
    refine ⟨_, by rw [inputs, get?_insert hn, if_pos ⟨rfl, rfl⟩], ?_⟩
    cases arrives with
    | first => exact Frame.merge_self _ f
    | grown _ merge =>
      rw [hc] at merge ⊢
      exact Frame.merge_again ht hclasses hf merge

/-- On a frame that the stored one absorbs, only what was looked at last changes. -/
theorem execute_of_absorbs {chain : CallChain} (hstored : s.inputs.get? n chain.key = some stored)
    (hmerge : Frame.merge c.hierarchy stored f = (stored, .ok false)) :
    c.execute g n f chain s = ({ s with last := some ⟨n, f, chain⟩ }, .ok false) := by
  simp only [execute, hstored, hmerge]

end MethodContext

/-- Over a table that is a tree in which no class extends an interface, let a node be executed on a
frame whose classes are there, after any executions whatever. If that succeeds, executing the node
once more on the frame, after a chain with the same context, finds no change and leaves the stored
frames and the number of instructions run as they are. A merge of the frame into any other says that
it changes it exactly if it does. -/
theorem execute_idempotent (t : ClassTable) (ht : t.IsTree) (hclasses : t.ExtendsClasses)
    (c : MethodContext) (hc : c.hierarchy = t.hierarchy) (g : FlowGraph) (s s' : FlowState)
    (hs : MethodContext.ByExecutions c g s) (n : Nat) (hn : n < g.size) (f : Frame)
    (hf : f.Over fun name => t.has name = true) (chain chain' : CallChain)
    (hkey : chain'.key = chain.key) (changed : Bool)
    (hfirst : c.execute g n f chain s = (s', .ok changed)) :
    (∃ s'', c.execute g n f chain' s' = (s'', .ok false) ∧ s''.inputs = s'.inputs ∧
      s''.outputs = s'.outputs ∧ s''.steps = s'.steps) ∧
    ∀ old merged grows, Frame.merge c.hierarchy old f = (merged, .ok grows) →
      (grows = true ↔ merged ≠ old) := by
  have hexecuted := MethodContext.executed_execute hfirst
  obtain ⟨stored, hstored, habsorbs⟩ := hexecuted.absorbs ht hclasses hc (hs.rows.symm ▸ hn) hf
  rw [← hkey] at hstored
  exact ⟨⟨_, MethodContext.execute_of_absorbs hstored habsorbs, rfl, rfl, rfl⟩,
    fun old merged grows => Frame.merge_changed_iff⟩

/-- A method that does nothing, among the pets. -/
def restingPet : MethodContext where
  hierarchy := petTable.hierarchy
  owner := { name := "app/Pet", super := some objectClass }
  method := { name := "rest", descriptor := "()V", access := .staticBit }
  type := ⟨[], none⟩

/-- Its instruction, alone. -/
def restingGraph : FlowGraph where
  code := #[⟨0, .nop, false, .none⟩]
  nodes := #[some 0]
  regions := #[]
  owner := #[]

/-- A frame with a dog, and another one that waits for its constructor. -/
def newDog : Frame :=
  petFrame (.reference "app/Dog") (.uninitialized "app/Dog" 0) .int false

/-- A frame with a cat. -/
def oldCat : Frame :=
  petFrame (.reference "app/Cat") .null (.returnAddress 3) true

/-- The state after the first of them. -/
def dogState : FlowState :=
  (restingPet.execute restingGraph 0 newDog .empty (MethodContext.startState restingGraph)).1

/-- A dog and a cat merge to a pet, the marker with null to a dog, and a number with a return
address to nothing usable. When the cat comes round once more, nothing changes. -/
theorem execute_idempotent_oldCat : petTable.IsTree ∧ petTable.ExtendsClasses ∧
    MethodContext.ByExecutions restingPet restingGraph dogState ∧
    oldCat.Over (fun name => petTable.has name = true) ∧ ∃ s s',
    restingPet.execute restingGraph 0 oldCat .empty dogState = (s, .ok true) ∧
    s.inputs.get? 0 .topLevel =
      some (petFrame (.reference "app/Pet") (.reference "app/Dog") .unknown true) ∧
    restingPet.execute restingGraph 0 oldCat (.step 0 .empty .empty 0) s = (s', .ok false) ∧
    s'.inputs = s.inputs ∧ s'.outputs = s.outputs ∧ s'.steps = s.steps := by
  have hstate : MethodContext.ByExecutions restingPet restingGraph dogState :=
    .execute 0 newDog .empty .start
  have hnames : ∀ v ∈ oldCat.stack.values ++ oldCat.locals.toList, ∀ name ∈ v.named?,
      petTable.has name = true := by decide +kernel
  have hover : oldCat.Over fun name => petTable.has name = true := by
    rintro v (hv | hv)
    · exact hnames v (List.mem_append_left _ hv)
    · exact hnames v (List.mem_append_right _ (Array.mem_toList_iff.2 hv))
  have hok : (restingPet.execute restingGraph 0 oldCat .empty dogState).2.toOption = some true := by
    decide +kernel
  have hmerged : (restingPet.execute restingGraph 0 oldCat .empty dogState).1.inputs.get? 0
      .topLevel = some (petFrame (.reference "app/Pet") (.reference "app/Dog") .unknown true) := by
    decide +kernel
  have hfirst : restingPet.execute restingGraph 0 oldCat .empty dogState =
      ((restingPet.execute restingGraph 0 oldCat .empty dogState).1, .ok true) :=
    Prod.ext rfl (toOption_eq_some.1 hok)
  obtain ⟨⟨s', hsecond⟩, -⟩ := execute_idempotent petTable isTree_petTable
    extendsClasses_petTable restingPet rfl restingGraph dogState _ hstate 0 (by decide) oldCat hover
    .empty (.step 0 .empty .empty 0) rfl true hfirst
  exact ⟨isTree_petTable, extendsClasses_petTable, hstate, hover, _, s', hfirst, hmerged, hsecond⟩

end Bytecode
