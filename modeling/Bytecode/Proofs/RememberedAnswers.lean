import Bytecode.ClassRepository
import Bytecode.Proofs.Climbs
import Bytecode.Proofs.Registration

/-!
What a repository remembers does not show.

After any requests, each question is answered as the table would answer it that holds the classes
registered last. This needs that a class which is registered makes the repository forget, and that
the common superclass of two classes does not depend on their order, in which it is not remembered.

* `answers_superclasses`, `answers_isSubclassOf`, `answers_commonSuperclass`: the questions;
* `superclass_queries_exact`: the answers after any requests.
-/
namespace Bytecode.ClassRepository

variable {α β : Type} {r : ClassRepository} {t : ClassTable}

/-! ### Questions -/

theorem ask_get_bind (r : ClassRepository) (f : ClassRepository → Query α) :
    r.ask (get >>= f) = r.ask (f r) := rfl

/-- Every remembered answer is one that the table would give. -/
structure Sound (r : ClassRepository) : Prop where
  chains : ∀ name chain, r.chains.lookup name = some chain → r.table.superclasses name = .ok chain
  common : ∀ a b d, r.common.lookup (pair a b) = some d → r.table.commonSuperclass a b = .ok d

theorem sound_new (t : ClassTable) : Sound { table := t } where
  chains _ _ h := by cases h
  common _ _ _ h := by cases h

/-- Every sound repository over a table gives an answer to a question, and is still sound and over
the table. -/
def Answers (t : ClassTable) (q : Query α) (answer : Except HierarchyError α) : Prop :=
  ∀ r : ClassRepository, r.Sound → r.table = t →
    (r.ask q).1 = answer ∧ (r.ask q).2.Sound ∧ (r.ask q).2.table = t

theorem answers_pure (t : ClassTable) (v : α) : Answers t (pure v) (.ok v) :=
  fun _ hr ht => ⟨rfl, hr, ht⟩

theorem Answers.bind {q : Query α} {f : α → Query β} {x : Except HierarchyError α}
    {y : α → Except HierarchyError β} (hq : Answers t q x)
    (hf : ∀ v, x = .ok v → Answers t (f v) (y v)) : Answers t (q >>= f) (x >>= y) := by
  intro r hr ht
  obtain ⟨hx, hr', ht'⟩ := hq r hr ht
  rcases hask : r.ask q with ⟨e | v, r'⟩
  · rw [hask] at hx hr' ht'
    cases hx
    rw [ask, run_bind_error hask]
    exact ⟨rfl, hr', ht'⟩
  · rw [hask] at hx hr' ht'
    cases hx
    rw [ask, run_bind_ok hask]
    exact hf v rfl r' hr' ht'

theorem answers_superclasses (t : ClassTable) (name : String) :
    Answers t (superclasses name) (t.superclasses name) := by
  rintro r hr rfl
  rw [superclasses, ask_get_bind]
  cases hchain : r.chains.lookup name with
  | some chain => exact ⟨(hr.chains name chain hchain).symm, hr, rfl⟩
  | none =>
    cases hafresh : r.table.superclasses name with
    | error e => exact ⟨rfl, hr, rfl⟩
    | ok chain =>
      -- The new answer was just given by the table, and the others were there.
      refine ⟨rfl, ⟨fun n c hn => ?_, hr.common⟩, rfl⟩
      change ((name, chain) :: r.chains).lookup n = some c at hn
      rw [List.lookup_cons] at hn
      split at hn
      · next hname =>
        cases hn
        rw [beq_iff_eq.1 hname]
        exact hafresh
      · exact hr.chains n c hn

theorem answers_isSubclassOf (t : ClassTable) (sub super : String) :
    Answers t (isSubclassOf sub super) (t.isSubclassOf sub super) := by
  unfold isSubclassOf ClassTable.isSubclassOf
  split
  · exact answers_pure t true
  · exact (answers_superclasses t sub).bind fun chain _ => answers_pure t (chain.contains super)

theorem pair_eq_iff {a b c d : String} : pair a b = pair c d ↔ a = c ∧ b = d ∨ a = d ∧ b = c := by
  unfold pair
  split <;> split <;> grind

/-- The common superclass of two classes, remembered in whichever order, or not. -/
theorem answers_commonSuperclass (t : ClassTable) (a b : String) :
    Answers t (commonSuperclass a b) (t.commonSuperclass a b) := by
  by_cases hab : a = b
  · rw [commonSuperclass, ClassTable.commonSuperclass, if_pos hab, if_pos hab]
    exact answers_pure t a
  rintro r hr rfl
  rw [commonSuperclass, if_neg hab, ask_get_bind]
  cases hcommon : r.common.lookup (pair a b) with
  | some d => exact ⟨(hr.common a b d hcommon).symm, hr, rfl⟩
  | none =>
    rw [ClassTable.commonSuperclass, if_neg hab]
    refine Answers.bind (answers_superclasses r.table a) (fun above ha => ?_) r hr rfl
    refine Answers.bind (answers_superclasses r.table b) fun other hb => ?_
    -- What is remembered now holds for the pair in either order.
    rintro r' hr' ht
    refine ⟨rfl, ⟨hr'.chains, fun c d e he => ?_⟩, ht⟩
    obtain ⟨common, hab', hba', -⟩ := ClassTable.exists_commonSuperclass_of_climbs hab ha hb
    have hstored := Except.ok.inj ((ClassTable.commonSuperclass_eq hab ha hb).symm.trans hab')
    change ((pair a b, _) :: r'.common).lookup (pair c d) = some e at he
    rw [List.lookup_cons] at he
    split at he
    · next hpair =>
      obtain rfl : common = e := hstored.symm.trans (Option.some.inj he)
      show r'.table.commonSuperclass c d = _
      rw [ht]
      rcases pair_eq_iff.1 (beq_iff_eq.1 hpair) with ⟨rfl, rfl⟩ | ⟨rfl, rfl⟩
      · exact hab'
      · exact hba'
    · exact hr'.common c d e he

/-! ### Requests -/

/-- What can be asked of a repository, and a class that can be given to it. -/
inductive Request where
  | register (c : Class)
  | superclasses (name : String)
  | isSubclassOf (sub super : String)
  | commonSuperclass (a b : String)

/-- The repository after a request. -/
def serve (r : ClassRepository) : Request → ClassRepository
  | .register c => (r.register c).2
  | .superclasses name => (r.ask (superclasses name)).2
  | .isSubclassOf sub super => (r.ask (isSubclassOf sub super)).2
  | .commonSuperclass a b => (r.ask (commonSuperclass a b)).2

/-- The class that a request registers. -/
def Request.class? : Request → Option Class
  | .register c => some c
  | _ => none

/-- A new repository after some requests. -/
def after (requests : List Request) : ClassRepository :=
  requests.foldl serve {}

/-- The table of the classes that some requests register. -/
def latest (requests : List Request) : ClassTable :=
  .registered (requests.filterMap Request.class?)

/-- A request keeps a repository sound, and changes its table only by a class that it registers. -/
theorem sound_serve (hr : r.Sound) (request : Request) : (r.serve request).Sound ∧
    (r.serve request).table = request.class?.toList.foldl ClassTable.register r.table := by
  cases request with
  | register c => exact ⟨sound_new _, rfl⟩
  | superclasses name => exact (answers_superclasses r.table name r hr rfl).2
  | isSubclassOf sub super => exact (answers_isSubclassOf r.table sub super r hr rfl).2
  | commonSuperclass a b => exact (answers_commonSuperclass r.table a b r hr rfl).2

/-- After any requests a repository is sound, and has the table of the classes that they register. -/
theorem sound_after (requests : List Request) :
    (after requests).Sound ∧ (after requests).table = latest requests := by
  -- By induction on the last request, since a repository is what the earlier ones left.
  induction requests using List.reverseRecOn with
  | nil => exact ⟨sound_new _, rfl⟩
  | append_singleton requests request ih =>
    obtain ⟨hsound, htable⟩ := ih
    obtain ⟨hsound', htable'⟩ := sound_serve hsound request
    have hafter : after (requests ++ [request]) = (after requests).serve request := by
      rw [after, List.foldl_append]
      rfl
    rw [hafter]
    refine ⟨hsound', htable'.trans ?_⟩
    rw [htable, latest, latest, List.filterMap_append, ClassTable.registered_append]
    cases request <;> rfl

/-- After any requests, a repository answers as the table of the classes registered last. The
superclasses of a class are told if they lead to a class without one and do not repeat, and then in
their order. The common superclass of two classes is the nearest that they share, or the root, in
whichever order they are named. -/
theorem superclass_queries_exact (requests : List Request) :
    (∀ name, (latest requests).find? name =
      (requests.filterMap Request.class?).reverse.find? fun c => c.name == name) ∧
    (∀ c, ((after requests).register c).1 = (latest requests).find? c.name) ∧
    (∀ name, ((after requests).ask (superclasses name)).1 = (latest requests).superclasses name) ∧
    (∀ sub super, ((after requests).ask (isSubclassOf sub super)).1 =
      (latest requests).isSubclassOf sub super) ∧
    (∀ a b, ((after requests).ask (commonSuperclass a b)).1 =
      (latest requests).commonSuperclass a b) ∧
    (∀ name chain, (latest requests).superclasses name = .ok chain ↔
      (latest requests).Climbs name chain ∧ (name :: chain).Nodup) ∧
    ∀ a b above other, a ≠ b → (latest requests).superclasses a = .ok above →
      (latest requests).superclasses b = .ok other →
      ∃ d, (latest requests).commonSuperclass a b = .ok d ∧
        (latest requests).commonSuperclass b a = .ok d ∧
        (latest requests).IsNearest (a :: above) (b :: other) d := by
  obtain ⟨hsound, htable⟩ := sound_after requests
  refine ⟨fun name => ClassTable.find?_registered _ name, fun c => ?_, fun name => ?_,
    fun sub super => ?_, fun a b => ?_, fun name chain => ?_, fun a b above other => ?_⟩
  · rw [← htable]
    rfl
  · exact (answers_superclasses _ name _ hsound htable).1
  · exact (answers_isSubclassOf _ sub super _ hsound htable).1
  · exact (answers_commonSuperclass _ a b _ hsound htable).1
  · rw [ClassTable.superclasses_iff_climbs]
    exact ⟨fun h => ⟨h, h.nodup⟩, fun h => h.1⟩
  · exact ClassTable.exists_commonSuperclass_of_climbs

/-- Pets of which the cat leaves the animals, after it was asked what it shares with the dog. -/
def petRequests : List Request :=
  [.register { name := objectClass, super := none },
    .register { name := "Animal", super := some objectClass },
    .register { name := "Dog", super := some "Animal" },
    .register { name := "Cat", super := some "Animal" },
    .commonSuperclass "Dog" "Cat",
    .register { name := "Cat", super := some objectClass }]

theorem superclass_queries_exact_cat :
    ((after (petRequests.take 5)).ask (commonSuperclass "Cat" "Dog")).1 = .ok "Animal" ∧
    ((after petRequests).ask (superclasses "Cat")).1 = .ok [objectClass] ∧
    ((after petRequests).ask (commonSuperclass "Cat" "Dog")).1 = .ok objectClass ∧
    (latest petRequests).IsNearest ["Cat", objectClass] ["Dog", "Animal", objectClass]
      objectClass := by
  have hcat : (latest petRequests).superclasses "Cat" = .ok [objectClass] := by decide +kernel
  have hdog : (latest petRequests).superclasses "Dog" = .ok ["Animal", objectClass] := by
    decide +kernel
  have hcommon : (latest petRequests).commonSuperclass "Cat" "Dog" = .ok objectClass := by
    decide +kernel
  have hbefore : (latest (petRequests.take 5)).commonSuperclass "Cat" "Dog" = .ok "Animal" := by
    decide +kernel
  obtain ⟨-, -, hsupers, -, hasks, -, hnear⟩ := superclass_queries_exact petRequests
  obtain ⟨-, -, -, -, hasks', -, -⟩ := superclass_queries_exact (petRequests.take 5)
  obtain ⟨d, hd, -, hnear⟩ := hnear "Cat" "Dog" _ _ (by decide) hcat hdog
  cases hd.symm.trans hcommon
  exact ⟨(hasks' _ _).trans hbefore, (hsupers _).trans hcat, (hasks _ _).trans hcommon, hnear⟩

end Bytecode.ClassRepository
