import Mathlib.Data.List.Forall2
import Bytecode.MethodContext

/-!
Computations that may fail.

* `bind_eq_ok` and its like: a computation succeeds when its parts do;
* `run_bind_ok`, `run_bind_error`: computations that keep a state, also when they fail;
* `FailsOnly`: every error of a computation has a property.
-/
namespace Bytecode

open List

variable {ε δ α β : Type} {x : Except ε α} {f : α → Except ε β} {a : α} {b : β} {e : ε} {p : Prop}
  {l : List α} {r : List β}

/-! ### Success -/

@[simp] theorem exists_unit {p : Unit → Prop} : (∃ u, p u) ↔ p () :=
  ⟨fun ⟨_, h⟩ => h, fun h => ⟨(), h⟩⟩

@[simp] theorem bind_eq_ok : (x >>= f) = .ok b ↔ ∃ a, x = .ok a ∧ f a = .ok b := by
  cases x with
  | error e => simp [bind, Except.bind]
  | ok a => simp [bind, Except.bind]

@[simp] theorem pure_eq_ok {a b : α} : (pure a : Except ε α) = .ok b ↔ a = b := by
  simp [pure, Except.pure]

@[simp] theorem map_eq_ok {f : α → β} : x.map f = .ok b ↔ ∃ a, x = .ok a ∧ f a = b := by
  cases x <;> simp [Except.map]

@[simp] theorem mapError_eq_ok {f : ε → δ} : x.mapError f = .ok a ↔ x = .ok a := by
  cases x with
  | error e =>
    show Except.error (f e) = .ok a ↔ Except.error e = .ok a
    simp
  | ok b =>
    show Except.ok b = .ok a ↔ Except.ok b = .ok a
    simp

theorem mapError_ok (f : ε → δ) (a : α) : (Except.ok a : Except ε α).mapError f = .ok a :=
  rfl

theorem run_bind_ok {σ : Type} {x : ExceptT ε (StateM σ) α} {s s' : σ}
    (h : x.run.run s = (.ok a, s')) (f : α → ExceptT ε (StateM σ) β) :
    (x >>= f).run.run s = (f a).run.run s' := by
  show ExceptT.bindCont f (x.run.run s).1 (x.run.run s).2 = _
  rw [h]
  rfl

theorem run_bind_error {σ : Type} {x : ExceptT ε (StateM σ) α} {s s' : σ}
    (h : x.run.run s = (.error e, s')) (f : α → ExceptT ε (StateM σ) β) :
    (x >>= f).run.run s = (.error e, s') := by
  show ExceptT.bindCont f (x.run.run s).1 (x.run.run s).2 = _
  rw [h]
  rfl

theorem toOption_eq_some : x.toOption = some a ↔ x = .ok a := by
  cases x <;> simp [Except.toOption]

instance decidableExistsSome (x : Option α) (P : α → Prop) [DecidablePred P] :
    Decidable (∃ a, x = some a ∧ P a) :=
  inferInstanceAs (Decidable (∃ a ∈ x, P a))

instance decidableExistsOk (x : Except ε α) (P : α → Prop) [DecidablePred P] :
    Decidable (∃ a, x = .ok a ∧ P a) :=
  decidable_of_iff (∃ a ∈ x.toOption, P a) (by simp [toOption_eq_some])

@[simp] theorem known_eq_ok {x : Except InternalError α} : known x = .ok a ↔ x = .ok a :=
  mapError_eq_ok

variable {ins : Instruction} {c : Complaint} {q : Except InternalError Bool}

@[simp] theorem reject_eq_ok : ins.reject c = .ok a ↔ False := by
  simp [Instruction.reject]

@[simp] theorem resolved_eq_ok {x : Except HierarchyError α} :
    MethodContext.resolved ins x = .ok a ↔ x = .ok a :=
  mapError_eq_ok

theorem ite_eq_ok [Decidable p] {x y : Except ε α} :
    (if p then x else y) = .ok a ↔ (p → x = .ok a) ∧ (¬p → y = .ok a) := by
  split <;> simp_all

theorem ite_error_eq_ok [Decidable p] {y : Except ε α} :
    (if p then .error e else y) = .ok a ↔ ¬p ∧ y = .ok a := by
  split <;> simp_all

theorem ite_error_bind_eq_ok [Decidable p] {k : β → Except ε α} {y : Except ε α} :
    (if p then Except.error e >>= k else y) = .ok a ↔ ¬p ∧ y = .ok a := by
  split <;> simp_all

theorem ite_reject_eq_ok [Decidable p] {y : Except Failure α} :
    (if p then ins.reject c else y) = .ok a ↔ ¬p ∧ y = .ok a :=
  ite_error_eq_ok

theorem ite_reject_bind_eq_ok [Decidable p] {k : β → Except Failure α} {y : Except Failure α} :
    (if p then ins.reject c >>= k else y) = .ok a ↔ ¬p ∧ y = .ok a :=
  ite_error_bind_eq_ok

theorem demand_eq_ok {y : Except Failure α} :
    (known q >>= fun b => if (!b) = true then ins.reject c else y) = .ok a ↔
      q = .ok true ∧ y = .ok a := by
  simp only [bind_eq_ok, known_eq_ok, ite_reject_eq_ok, Bool.not_eq_true', Bool.not_eq_false]
  constructor
  · rintro ⟨b, hb, rfl, hy⟩
    exact ⟨hb, hy⟩
  · rintro ⟨hb, hy⟩
    exact ⟨true, hb, rfl, hy⟩

theorem demand_bind_eq_ok {k : β → Except Failure α} {y : Except Failure α} :
    (known q >>= fun b => if (!b) = true then ins.reject c >>= k else y) = .ok a ↔
      q = .ok true ∧ y = .ok a :=
  demand_eq_ok

@[simp] theorem forM_eq_ok {f : α → Except ε Unit} : forM l f = .ok () ↔ ∀ a ∈ l, f a = .ok () := by
  induction l with
  | nil => simp
  | cons a l ih => simp [ih]

theorem mapM_eq_ok : l.mapM f = .ok r ↔ l.map f = r.map .ok := by
  induction l generalizing r with
  | nil => cases r <;> simp
  | cons a l ih =>
    simp only [mapM_cons, bind_eq_ok, pure_eq_ok, ih, map_cons]
    cases r with
    | nil => simp
    | cons b r => simp

theorem mapM_eq_some {f : α → Option β} : l.mapM f = some r ↔ l.map f = r.map some := by
  induction l generalizing r with
  | nil => cases r <;> simp
  | cons a l ih =>
    simp only [mapM_cons, Option.bind_eq_bind, Option.bind_eq_some_iff, Option.pure_def,
      Option.some.injEq, ih, map_cons]
    cases r with
    | nil => simp
    | cons b r => simp

theorem exists_mapM_eq_ok (h : ∀ a ∈ l, ∃ b, f a = .ok b) :
    ∃ r, l.mapM f = .ok r ∧ ∀ a ∈ l, ∀ b, f a = .ok b → b ∈ r := by
  induction l with
  | nil => exact ⟨[], rfl, by simp⟩
  | cons a l ih =>
    obtain ⟨b, hb⟩ := h a mem_cons_self
    obtain ⟨r, hr, hmem⟩ := ih fun x hx => h x (mem_cons_of_mem a hx)
    refine ⟨b :: r, by simp [hb, hr, pure, Except.pure, bind, Except.bind], fun x hx y hy => ?_⟩
    rcases mem_cons.1 hx with rfl | hx
    · cases hb.symm.trans hy
      exact mem_cons_self
    · exact mem_cons_of_mem b (hmem x hx y hy)

theorem exists_of_mem_mapM (h : l.mapM f = .ok r) (hb : b ∈ r) : ∃ a ∈ l, f a = .ok b := by
  have hmem : .ok b ∈ l.map f := by
    rw [mapM_eq_ok.1 h]
    exact mem_map.2 ⟨b, hb, rfl⟩
  exact mem_map.1 hmem

theorem exists_mem_of_mapM (h : l.mapM f = .ok r) (ha : a ∈ l) : ∃ b ∈ r, f a = .ok b := by
  have hmem : f a ∈ r.map .ok := by
    rw [← mapM_eq_ok.1 h]
    exact mem_map.2 ⟨a, ha, rfl⟩
  obtain ⟨b, hb, hfa⟩ := mem_map.1 hmem
  exact ⟨b, hb, hfa.symm⟩

theorem forall₂_of_mapM (h : l.mapM f = .ok r) : Forall₂ (fun a b => f a = .ok b) l r := by
  rw [mapM_eq_ok, ← List.forall₂_eq_eq_eq, List.forall₂_map_left_iff,
    List.forall₂_map_right_iff] at h
  exact h

theorem exists_of_forall₂ {R : α → β → Prop} {i : Nat} (h : Forall₂ R l r) (hb : r[i]? = some b) :
    ∃ a, l[i]? = some a ∧ R a b := by
  induction h generalizing i with
  | nil => cases hb
  | @cons a _ _ _ hab _ ih =>
    cases i with
    | zero =>
      cases hb
      exact ⟨a, rfl, hab⟩
    | succ i => exact ih hb

theorem getElem?_of_array_mapM {xs : Array α} {r : Array β} (h : xs.mapM f = .ok r) :
    r.size = xs.size ∧ ∀ (n : Nat) (a : α), xs[n]? = some a → ∃ b, r[n]? = some b ∧ f a = .ok b := by
  rw [Array.mapM_eq_mapM_toList] at h
  obtain ⟨l, hl, rfl⟩ := map_eq_ok.1 h
  have hall := forall₂_of_mapM hl
  refine ⟨by simpa using hall.length_eq.symm, fun n a ha => ?_⟩
  obtain ⟨b, hb, hab⟩ := exists_of_forall₂ hall.flip (by simpa using ha)
  exact ⟨b, by simpa using hb, hab⟩

/-! ### Errors -/

/-- Every error of a computation has the property `P`. -/
def FailsOnly (P : ε → Prop) (r : Except ε α) : Prop :=
  ∀ e, r = .error e → P e

namespace FailsOnly

variable {P : ε → Prop}

theorem ok (a : α) : FailsOnly P (.ok a) := by
  intro e h
  cases h

theorem pure (a : α) : FailsOnly P (Pure.pure a : Except ε α) :=
  ok a

theorem error (h : P e) : FailsOnly P (.error e : Except ε α) := by
  intro e' h'
  cases h'
  exact h

theorem bind (hx : FailsOnly P x) (hf : ∀ a, x = .ok a → FailsOnly P (f a)) :
    FailsOnly P (x >>= f) := by
  cases x with
  | error e => exact error (hx e rfl)
  | ok a => exact hf a rfl

theorem bind_ok (hx : x = .ok a) (hf : FailsOnly P (f a)) : FailsOnly P (x >>= f) := by
  rw [hx]
  exact hf

theorem exists_ok (hx : FailsOnly P x) (h : ∀ e, ¬P e) : ∃ a, x = .ok a := by
  cases x with
  | error e => exact absurd (hx e rfl) (h e)
  | ok a => exact ⟨a, rfl⟩

theorem map {f : α → β} (hx : FailsOnly P x) : FailsOnly P (x.map f) := by
  cases x with
  | error e => exact error (hx e rfl)
  | ok a => exact ok _

theorem mapError {x : Except δ α} {f : δ → ε} (hx : FailsOnly (fun e => P (f e)) x) :
    FailsOnly P (x.mapError f) := by
  cases x with
  | error e => exact error (hx e rfl)
  | ok a => exact ok a

theorem ite [Decidable p] {x y : Except ε α} (hx : p → FailsOnly P x)
    (hy : ¬p → FailsOnly P y) : FailsOnly P (if p then x else y) := by
  split
  · exact hx ‹_›
  · exact hy ‹_›

theorem forM {f : α → Except ε Unit} (h : ∀ a ∈ l, FailsOnly P (f a)) :
    FailsOnly P (ForM.forM l f) := by
  induction l with
  | nil => exact ok ()
  | cons a l ih =>
    rw [forM_cons]
    refine bind (h a mem_cons_self) fun _ _ => ih fun b hb => h b (mem_cons_of_mem a hb)

end FailsOnly

end Bytecode
