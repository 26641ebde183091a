import Mathlib.Data.List.Perm.Basic
import Mathlib.Data.Prod.Basic
import Bytecode.Verdict
import Bytecode.Proofs.Failing

/-!
Workers that share tasks.

Tasks are begun in their order, at most so many at a time, and each ends when it may. A task that
fails is noted, unless one has failed before, and from then on tasks may be passed over.

* `Crew.exists_finished`: a crew with a place to work comes to an end;
* `Crew.agrees_of_reaches`: the results are those of the tasks one after the other, or some task
  has failed in both.
-/
namespace Bytecode

open List

/-- Workers at numbered tasks: those that wait, those that are being done, the results by the number
of their task, and the first failure. -/
structure Crew (α ε β : Type) where
  waiting : List (α × Nat)
  running : List (α × Nat) := []
  results : List (β × Nat) := []
  failure : Option ε := none

namespace Crew

variable {α ε β : Type} {work : α → Except ε β} {limit : Nat} {s s' : Crew α ε β} {tasks : List α}

/-- A task is begun if fewer than `limit` are being done, and those that are end in any order. -/
inductive Step (work : α → Except ε β) (limit : Nat) (s : Crew α ε β) : Crew α ε β → Prop
  | begins {t : α × Nat} {rest : List (α × Nat)} (waiting : s.waiting = t :: rest)
      (free : s.running.length < limit) :
      Step work limit s { s with waiting := rest, running := t :: s.running }
  | ends {t : α × Nat} {before after : List (α × Nat)} {b : β}
      (running : s.running = before ++ t :: after) (result : work t.1 = .ok b) :
      Step work limit s { s with running := before ++ after, results := (b, t.2) :: s.results }
  | fails {t : α × Nat} {before after : List (α × Nat)} {e : ε}
      (running : s.running = before ++ t :: after) (error : work t.1 = .error e) :
      Step work limit s { s with running := before ++ after, failure := s.failure.or (some e) }
  | passes {t : α × Nat} {before after : List (α × Nat)}
      (running : s.running = before ++ t :: after) (failed : s.failure.isSome = true) :
      Step work limit s { s with running := before ++ after }

inductive Reaches (work : α → Except ε β) (limit : Nat) (tasks : List α) : Crew α ε β → Prop
  | start : Reaches work limit tasks { waiting := tasks.zipIdx }
  | step {s s' : Crew α ε β} (reaches : Reaches work limit tasks s) (step : Step work limit s s') :
      Reaches work limit tasks s'

def IsFinished (s : Crew α ε β) : Prop :=
  s.waiting = [] ∧ s.running = []

/-! ### Every crew comes to an end -/

/-- The steps that are left. -/
def left (s : Crew α ε β) : Nat :=
  2 * s.waiting.length + s.running.length

theorem left_lt_of_step (h : Step work limit s s') : s'.left < s.left := by
  cases h with
  | begins waiting =>
    simp only [left, waiting, length_cons]
    omega
  | ends running | fails running | passes running =>
    simp only [left, running, length_append, length_cons]
    omega

theorem exists_step (hlimit : 0 < limit) (h : ¬s.IsFinished) : ∃ s', Step work limit s s' := by
  cases hrunning : s.running with
  | nil =>
    cases hwaiting : s.waiting with
    | nil => exact absurd ⟨hwaiting, hrunning⟩ h
    | cons t rest => exact ⟨_, .begins hwaiting (by simpa [hrunning] using hlimit)⟩
  | cons t rest =>
    cases hwork : work t.1 with
    | ok b => exact ⟨_, .ends (show s.running = [] ++ t :: rest from hrunning) hwork⟩
    | error e => exact ⟨_, .fails (show s.running = [] ++ t :: rest from hrunning) hwork⟩

theorem exists_finished (hlimit : 0 < limit) (h : Reaches work limit tasks s) :
    ∃ s', Reaches work limit tasks s' ∧ s'.IsFinished := by
  induction hleft : s.left using Nat.strongRecOn generalizing s with
  | ind n ih =>
    subst hleft
    by_cases hfinished : s.IsFinished
    · exact ⟨s, h, hfinished⟩
    · obtain ⟨s', hstep⟩ := exists_step hlimit hfinished
      exact ih _ (left_lt_of_step hstep) (h.step hstep) rfl

/-! ### What a crew comes to -/

/-- What has come of tasks and what will come of the others, with their numbers. -/
def outcomes (work : α → Except ε β) (s : Crew α ε β) : List (Except ε β × Nat) :=
  (s.waiting ++ s.running).map (Prod.map work id) ++ s.results.map (Prod.map .ok id)

/-- A failure is that of a task, and no task is lost unless one has failed. -/
structure Sound (work : α → Except ε β) (tasks : List α) (s : Crew α ε β) : Prop where
  failure : ∀ e ∈ s.failure, .error e ∈ tasks.map work
  complete : s.failure = none → (s.outcomes work).Perm (tasks.map work).zipIdx

theorem sound_start : Sound work tasks { waiting := tasks.zipIdx } where
  failure := by simp
  complete _ := by simp [outcomes, zipIdx_map]

theorem Sound.step (h : Sound work tasks s) (hstep : Step work limit s s') :
    Sound work tasks s' := by
  cases hstep with
  | @begins t rest waiting =>
    refine ⟨h.failure, fun hnone => .trans ?_ (h.complete hnone)⟩
    simp only [outcomes, waiting]
    exact (perm_middle.map _).append_right _
  | @ends t before after b running result =>
    refine ⟨h.failure, fun hnone => .trans ?_ (h.complete hnone)⟩
    have ht : Prod.map work id t = Prod.map .ok id (b, t.2) := by simp [Prod.map, result]
    simp only [outcomes, running, ← append_assoc, map_cons, ← ht]
    exact perm_middle.trans ((perm_middle.map _).append_right _).symm
  | @fails t before after e running error =>
    refine ⟨fun e' he' => ?_, fun hnone => by simp at hnone⟩
    cases hfailure : s.failure with
    | some first => exact h.failure e' (by simpa [hfailure] using he')
    | none =>
      obtain rfl : e = e' := by simpa [hfailure] using he'
      have ht : (.error e, t.2) ∈ s.outcomes work := by
        rw [← error]
        exact mem_append_left _ (mem_map_of_mem (a := t) (by simp [running]))
      exact fst_mem_of_mem_zipIdx ((h.complete hfailure).mem_iff.1 ht)
  | passes _ failed =>
    refine ⟨h.failure, fun hnone => ?_⟩
    rw [show s.failure = none from hnone] at failed
    cases failed

theorem sound_of_reaches (h : Reaches work limit tasks s) : Sound work tasks s := by
  induction h with
  | start => exact sound_start
  | step _ step ih => exact ih.step step

/-- A crew has come to the results with the numbers of their tasks, or to a failure. -/
def Agrees (s : Crew α ε β) : Except ε (List β) → Prop
  | .ok results => s.failure = none ∧ s.results.Perm results.zipIdx
  | .error _ => s.failure.isSome = true

theorem agrees_of_reaches (h : Reaches work limit tasks s) (hfinished : s.IsFinished) :
    s.Agrees (tasks.mapM work) := by
  obtain ⟨hfailure, hcomplete⟩ := sound_of_reaches h
  rw [outcomes, hfinished.1, hfinished.2] at hcomplete
  cases hall : tasks.mapM work with
  | ok results =>
    rw [mapM_eq_ok.1 hall] at hfailure hcomplete
    have hnone : s.failure = none := by
      cases hfails : s.failure with
      | none => rfl
      | some e => simpa using hfailure e hfails
    refine ⟨hnone, ?_⟩
    have hinjective : Function.Injective (Prod.map (Except.ok (ε := ε) (α := β)) (@id Nat)) :=
      Function.Injective.prodMap (fun _ _ => Except.ok.inj) fun _ _ => id
    rw [← map_perm_map_iff hinjective, map_zipIdx]
    exact hcomplete hnone
  | error e =>
    show s.failure.isSome = true
    rw [Option.isSome_iff_ne_none]
    intro hnone
    -- Without a failure every task has a result.
    obtain ⟨results, hresults, -⟩ : ∃ results, tasks.mapM work = .ok results ∧ _ := by
      refine exists_mapM_eq_ok fun a ha => ?_
      obtain ⟨i, hi, rfl⟩ := mem_iff_getElem.1 ha
      have hmem : (work tasks[i], i) ∈ (tasks.map work).zipIdx := by
        simp [mk_mem_zipIdx_iff_getElem?, hi]
      obtain ⟨r, -, hr⟩ := mem_map.1 ((hcomplete hnone).mem_iff.2 hmem)
      exact ⟨r.1, (Prod.mk.inj hr).1.symm⟩
    cases hresults.symm.trans hall

end Crew

end Bytecode
