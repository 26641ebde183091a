import Mathlib.Data.List.Nodup
import Bytecode.Batch
import Bytecode.Proofs.Records
import Bytecode.Proofs.Workers

/-!
Kept verdicts are the verdicts that would be given again.

Runs that share a store give the reports that they give without one, up to the marks of the run that
a verdict comes from, unless they are called off. The digests of different records are taken to
differ, and a kept report to be read as it was written, if it is read at all: the codec is any one
with this property. What is logged is no part of a response.

* `Job.Keepable`: what is taken for granted about the jobs of all runs;
* `Request.respond_answers`, `Request.respondAll_answers`: the responses to one request, and to
  requests that share a store;
* `store_is_transparent`: runs with a store and without one, with few workers and with many;
* `cancelled_run_answered`: a store may answer for a run that has been called off.
-/
namespace Bytecode

open Fingerprint List MethodReport

/-! ### Marks of a run -/

/-- A verdict without the run that gave it. -/
def Verdict.unmarked (v : Verdict) : Verdict :=
  { v with runId := "" }

/-- A report on a method without the run that its verdict comes from. -/
def MethodReport.unmarked (m : MethodReport) : MethodReport :=
  { m with runId := "", cached := false }

/-- A report whose verdicts are without the runs that they come from. -/
def Report.unmarked (r : Report) : Report :=
  { r with methods := r.methods.map MethodReport.unmarked }

theorem MethodReport.unmarked_ofVerdict (v : Verdict) :
    (ofVerdict v).unmarked = ofVerdict v.unmarked := rfl

/-- The run shows in a verdict as its mark alone. -/
theorem verify_unmarked (h : Hierarchy) (options : VerifyOptions) (runId : String) (owner : Class)
    (m : Method) :
    (verify h options runId owner m).map Verdict.unmarked = verify h options "" owner m := by
  unfold verify verifyTraced
  cases m.hasCode with
  | false => rfl
  | true =>
    simp only [Bool.not_true, Bool.false_eq_true, if_false]
    cases m.prepare owner.pool with
    | error fault => rfl
    | ok prepared =>
      dsimp only
      cases FlowGraph.build prepared.code m.handlers owner.pool options.strict with
      | error failure => cases failure <;> rfl
      | ok g =>
        dsimp only
        cases (MethodContext.solve ⟨h, owner, m, prepared.type⟩ g).2 with
        | ok _ => rfl
        | error failure => cases failure <;> rfl

/-! ### Jobs -/

/-- The verification of one method in one run. -/
structure Job where
  table : ClassTable
  options : VerifyOptions
  runId : String
  owner : Class
  method : Method

namespace Job

variable (j : Job)

/-- The verdict of a job. -/
def verdict : Except InternalError Verdict :=
  verify j.table j.options j.runId j.owner j.method

/-- The record that the method's digest is made from. -/
def methodRecord : List UInt8 :=
  Fingerprint.methodRecord j.owner j.method

/-- The record that the digest of the class table is made from. -/
def hierarchyRecord : List UInt8 :=
  Fingerprint.hierarchyRecord j.table

/-- The record that the key is made from. -/
def keyRecord : List UInt8 :=
  Fingerprint.keyRecord (Sha256.digest j.methodRecord) (Sha256.digest j.hierarchyRecord) j.options

/-- The byte strings of which digests are made. -/
def records : List (List UInt8) :=
  [j.methodRecord, j.hierarchyRecord, j.keyRecord]

/-- The key that the verdict is kept under. -/
def key : String :=
  Fingerprint.verdictKey (Fingerprint.method j.owner j.method) (Fingerprint.hierarchy j.table)
    j.options

/-- The lengths and integers of a job fit in its records. -/
def Fits : Prop :=
  Fingerprint.FitsMethod j.owner j.method ∧ Fingerprint.FitsTable j.table ∧
    Fingerprint.FitsInteger j.options.traceLimit

instance : Decidable j.Fits :=
  inferInstanceAs (Decidable (_ ∧ _))

variable {j} {i : Job}

theorem options_eq (hstrict : i.options.strict = j.options.strict)
    (hlimit : i.options.traceLimit = j.options.traceLimit) : i.options = j.options := by
  cases hi : i.options
  cases hj : j.options
  rw [hi, hj] at hstrict hlimit
  cases hstrict
  cases hlimit
  rfl

theorem verdict_of_parts (hmethod : i.method = j.method)
    (howner : i.owner.withoutMembers = j.owner.withoutMembers)
    (hclasses : i.table.outlines = j.table.outlines) (hoptions : i.options = j.options) :
    i.verdict.map Verdict.unmarked = j.verdict.map Verdict.unmarked := by
  unfold verdict
  rw [verify_unmarked, verify_unmarked, hoptions, hmethod]
  exact verify_congr j.options "" j.method hclasses howner

theorem verdict_of_records (hi : i.Fits) (hj : j.Fits)
    (hmethod : i.methodRecord = j.methodRecord) (hhierarchy : i.hierarchyRecord = j.hierarchyRecord)
    (hoptions : i.options = j.options) :
    i.verdict.map Verdict.unmarked = j.verdict.map Verdict.unmarked := by
  obtain ⟨howner, hm⟩ := methodRecord_inj hi.1 hj.1 hmethod
  exact verdict_of_parts hm howner (hierarchyRecord_inj hi.2.1 hj.2.1 hhierarchy) hoptions

/-- What is taken for granted about jobs whose verdicts are kept: their records can hold them, no
two of their records have the same digest, and a report that was kept is read back or not at all. -/
structure Keepable (codec : Codec) (jobs : List Job) : Prop where
  fits : ∀ j ∈ jobs, j.Fits
  digest : ∀ i ∈ jobs, ∀ j ∈ jobs, ∀ a ∈ i.records, ∀ b ∈ j.records,
    Sha256.digest a = Sha256.digest b → a = b
  payload : ∀ j ∈ jobs, ∀ v, j.verdict = .ok v →
    codec.decode? (codec.encode (.ofVerdict v)) = none ∨
      codec.decode? (codec.encode (.ofVerdict v)) = some (.ofVerdict v)

/-- Jobs with one key have one verdict: the key tells the digests, and these tell the records. -/
theorem Keepable.verdict_of_key {codec : Codec} {jobs : List Job} (h : Keepable codec jobs)
    (hi : i ∈ jobs) (hj : j ∈ jobs) (hkey : i.key = j.key) :
    i.verdict.map Verdict.unmarked = j.verdict.map Verdict.unmarked := by
  have hlength : ∀ k : Job,
      (Sha256.digest k.methodRecord).length = 32 ∧ (Sha256.digest k.hierarchyRecord).length = 32 :=
    fun k => ⟨length_digest _, length_digest _⟩
  have hrecord : i.keyRecord = j.keyRecord := by
    refine h.digest i hi j hj _ (by simp [records]) _ (by simp [records]) ?_
    refine text_inj ?_ hkey
    rw [length_digest, length_digest]
  obtain ⟨hmethod, hhierarchy, hoptions⟩ := keyRecord_inj (hlength i) (hlength j)
    (h.fits i hi).2.2 (h.fits j hj).2.2 hrecord
  exact verdict_of_records (h.fits i hi) (h.fits j hj)
    (h.digest i hi j hj _ (by simp [records]) _ (by simp [records]) hmethod)
    (h.digest i hi j hj _ (by simp [records]) _ (by simp [records]) hhierarchy) hoptions

end Job

/-! ### Stores -/

namespace VerdictStore

/-- Every entry is the report on the verdict of a job, under its key. -/
def Kept (codec : Codec) (jobs : List Job) (s : VerdictStore) : Prop :=
  ∀ e ∈ s.entries, ∃ j ∈ jobs, ∃ v, j.verdict = .ok v ∧ e.key = j.key ∧
    e.payload = codec.encode (.ofVerdict v)

variable {codec : Codec} {jobs : List Job} {s : VerdictStore} {j : Job}

theorem kept_empty : Kept codec jobs {} := by
  intro e he
  cases he

/-- What a store gives for the key of a job is the report that the job gives, but for its marks. -/
theorem Kept.get (hs : s.Kept codec jobs) (h : Job.Keepable codec jobs) (hj : j ∈ jobs)
    {report : MethodReport} (hget : s.get codec j.key = .ok (some report)) :
    ∃ v, j.verdict = .ok v ∧ report.unmarked = (ofVerdict v).unmarked := by
  unfold VerdictStore.get whenOpen at hget
  split at hget
  · obtain ⟨kept, hkept, rfl⟩ := Option.map_eq_some_iff.1 (Except.ok.inj hget)
    obtain ⟨e, hfind, hdecode⟩ := Option.bind_eq_some_iff.1 hkept
    obtain ⟨i, hi, v, hv, hkey, hpayload⟩ := hs e (mem_of_find?_eq_some hfind)
    have hejkey : e.key = j.key := by simpa using find?_some hfind
    have hsame := h.verdict_of_key hj hi (hejkey.symm.trans hkey)
    rw [hv] at hsame
    obtain ⟨w, hw, hvw⟩ := map_eq_ok.1 hsame
    have hkept : kept = ofVerdict v := by
      rw [hpayload] at hdecode
      rcases h.payload i hi v hv with hnone | hsome
      · cases hnone.symm.trans hdecode
      · exact (Option.some.inj (hsome.symm.trans hdecode)).symm
    refine ⟨w, hw, ?_⟩
    show kept.unmarked = _
    rw [hkept, unmarked_ofVerdict, unmarked_ofVerdict, hvw]
  · cases hget

theorem Kept.put (hs : s.Kept codec jobs) (hj : j ∈ jobs) {v : Verdict}
    (hv : j.verdict = .ok v) (now : Int) :
    ((s.put codec j.key v now).toOption.getD s).Kept codec jobs := by
  unfold VerdictStore.put whenOpen
  split
  · intro e he
    rcases mem_cons.1 he with rfl | he
    · exact ⟨j, hj, v, hv, rfl, rfl⟩
    · exact hs e (mem_filter.1 he).1
  · exact hs

end VerdictStore

/-! ### Batches -/

theorem map_mapM {ε α β γ : Type} (f : α → Except ε β) (g : β → γ) (l : List α) :
    (l.mapM f).map (List.map g) = l.mapM fun a => (f a).map g := by
  induction l with
  | nil => rfl
  | cons a l ih =>
    rw [mapM_cons, mapM_cons, ← ih]
    cases f a with
    | error e => rfl
    | ok b => cases l.mapM f <;> rfl

/-- Two computations give results that belong together, or fail alike; or the first fails with an
error that has the property `P`. -/
inductive Alike {ε α β : Type} (P : ε → Prop) (R : α → β → Prop) : Except ε α → Except ε β → Prop
  | ok {a : α} {b : β} (h : R a b) : Alike P R (.ok a) (.ok b)
  | error (e : ε) : Alike P R (.error e) (.error e)
  | off {e : ε} (h : P e) (y : Except ε β) : Alike P R (.error e) y

namespace Alike

variable {ε α β γ δ : Type} {P : ε → Prop} {R : α → β → Prop} {S : γ → δ → Prop} {x : Except ε α}
  {y : Except ε β}

theorem bind {f : α → Except ε γ} {g : β → Except ε δ} (h : Alike P R x y)
    (hfg : ∀ a b, R a b → Alike P S (f a) (g b)) : Alike P S (x >>= f) (y >>= g) := by
  cases h with
  | ok hab => exact hfg _ _ hab
  | error e => exact .error e
  | off he y => exact .off he _

theorem map {f : α → γ} {g : β → δ} (h : Alike P R x y) (hfg : ∀ a b, R a b → S (f a) (g b)) :
    Alike P S (x.map f) (y.map g) := by
  cases h with
  | ok hab => exact .ok (hfg _ _ hab)
  | error e => exact .error e
  | off he y => exact .off he _

theorem map_eq_or {f : α → γ} {g : β → γ} (h : Alike P R x y) (hfg : ∀ a b, R a b → f a = g b) :
    x.map f = y.map g ∨ ∃ e, P e ∧ x = .error e := by
  cases h with
  | ok hab => exact .inl (congrArg Except.ok (hfg _ _ hab))
  | error e => exact .inl rfl
  | off he y => exact .inr ⟨_, he, rfl⟩

theorem mapM {f : γ → Except ε α} {g : γ → Except ε β} {l : List γ}
    (h : ∀ c ∈ l, Alike P R (f c) (g c)) : Alike P (Forall₂ R) (l.mapM f) (l.mapM g) := by
  induction l with
  | nil => exact .ok .nil
  | cons c l ih =>
    obtain ⟨hc, hl⟩ := forall_mem_cons.1 h
    rw [mapM_cons, mapM_cons]
    exact hc.bind fun _ _ hab => (ih hl).bind fun _ _ habs => .ok (.cons hab habs)

end Alike

namespace Batch

variable (b : Batch) (c : Class)

/-- The job of verifying a method of a class. -/
def job (m : Method) : Job :=
  { table := b.table, options := b.options, runId := b.runId, owner := c, method := m }

/-- The same work in a run that nobody calls off. -/
def calm : Batch :=
  { b with cancelled := fun _ _ => false }

/-- What comes of a method that is verified. -/
def outcome (m : Method) : Except RunError Verdict :=
  verifyUnless (b.cancelled c m) b.table b.options b.runId c m

theorem outcome_calm (m : Method) :
    b.calm.outcome c m = (b.job c m).verdict.mapError .internal := rfl

/-- The run has been called off. -/
def IsCancelled (e : RunError) : Prop :=
  e = .cancelled ∧ ∃ c m, b.cancelled c m = true

/-- A method is verified, unless it finds the run called off. -/
theorem outcome_alike (m : Method) :
    Alike b.IsCancelled (fun v w => (b.job c m).verdict = .ok v ∧ v = w) (b.outcome c m)
      (b.calm.outcome c m) := by
  rw [outcome_calm, outcome]
  cases hcancelled : b.cancelled c m with
  | true => exact .off ⟨rfl, c, m, hcancelled⟩ _
  | false =>
    show Alike _ _ ((b.job c m).verdict.mapError RunError.internal) _
    cases (b.job c m).verdict with
    | error e => exact .error _
    | ok v => exact .ok ⟨rfl, rfl⟩

/-- The report on one method, with what is to be put into the store. -/
def judge (codec : Codec) (hierarchy : List UInt8) (store : Option VerdictStore) (m : Method) :
    Except RunError (MethodReport × Option (String × Verdict)) := do
  let key := store.map fun _ =>
    Fingerprint.verdictKey (Fingerprint.method c m) hierarchy b.options
  let stored : Option MethodReport := do ((← store).get codec (← key)).toOption.join
  match stored with
  | some report => return (report, none)
  | none =>
    let v ← verifyUnless (b.cancelled c m) b.table b.options b.runId c m
    return (MethodReport.ofVerdict v, key.map (·, v))

/-- The report on one method. -/
def reportOn (codec : Codec) (hierarchy : List UInt8) (store : Option VerdictStore) (m : Method) :
    Except RunError MethodReport :=
  (b.judge c codec hierarchy store m).map (·.1)

/-- The store with new verdicts in it. -/
def keep (codec : Codec) (s : VerdictStore) (fresh : List (String × Verdict)) : VerdictStore :=
  fresh.foldl (fun s (key, v) => (s.put codec key v b.now).toOption.getD s) s

variable (codec : Codec)

theorem verifyClass_eq (hierarchy : List UInt8) (store : Option VerdictStore)
    (methods : List Method) :
    b.verifyClass codec hierarchy store c methods =
      (methods.mapM (b.judge c codec hierarchy store)).map fun judged =>
        (judged.map (·.1), store.map fun s => b.keep codec s (judged.filterMap (·.2))) := by
  show (methods.mapM (b.judge c codec hierarchy store) >>= _) = _
  cases methods.mapM (b.judge c codec hierarchy store) <;> rfl

theorem reports_eq_mapM (hierarchy : List UInt8) (store : Option VerdictStore)
    (methods : List Method) :
    (b.verifyClass codec hierarchy store c methods).map (·.1) =
      methods.mapM (b.reportOn c codec hierarchy store) := by
  show _ = methods.mapM fun m => (b.judge c codec hierarchy store m).map (·.1)
  rw [verifyClass_eq, ← map_mapM]
  cases methods.mapM (b.judge c codec hierarchy store) <;> rfl

theorem judge_none (hierarchy : List UInt8) (m : Method) :
    b.judge c codec hierarchy none m = (b.outcome c m).map fun v => (ofVerdict v, none) := by
  show (b.outcome c m >>= _) = _
  cases b.outcome c m <;> rfl

theorem judge_some (s : VerdictStore) (m : Method) :
    b.judge c codec (hierarchy b.table) (some s) m =
      match (s.get codec (b.job c m).key).toOption.join with
      | some report => .ok (report, none)
      | none => (b.outcome c m).map fun v => (ofVerdict v, some ((b.job c m).key, v)) := by
  show (match (s.get codec (b.job c m).key).toOption.join with
    | some report => _
    | none => b.outcome c m >>= _) = _
  split
  · rfl
  · cases b.outcome c m <;> rfl

variable {b c codec} {jobs : List Job} {s : VerdictStore}

variable {m : Method} {methods : List Method} {reports : List MethodReport}
  {store : Option VerdictStore}

/-- A report from the store is the one that is given without a store, and what goes into the store is
the verdict on the job. -/
theorem judge_alike (hs : s.Kept codec jobs) (h : Job.Keepable codec jobs)
    (hj : b.job c m ∈ jobs) (hierarchy : List UInt8) :
    Alike b.IsCancelled (fun x y => x.1.unmarked = y.1.unmarked ∧
        ∀ p ∈ x.2, ∃ j ∈ jobs, p.1 = j.key ∧ j.verdict = .ok p.2)
      (b.judge c codec (Fingerprint.hierarchy b.table) (some s) m)
      (b.calm.judge c codec hierarchy none m) := by
  rw [judge_some, judge_none]
  split
  · next report hreport =>
    obtain ⟨v, hv, hunmarked⟩ := hs.get h hj
      (toOption_eq_some.1 (Option.join_eq_some_iff.1 hreport))
    rw [outcome_calm, hv]
    exact .ok ⟨hunmarked, by simp⟩
  · refine (outcome_alike b c m).map ?_
    rintro v _ ⟨hv, rfl⟩
    refine ⟨rfl, fun p hp => ?_⟩
    rw [← Option.mem_some.1 hp]
    exact ⟨b.job c m, hj, rfl, hv⟩

theorem kept_keep (hs : s.Kept codec jobs) {fresh : List (String × Verdict)}
    (hfresh : ∀ p ∈ fresh, ∃ j ∈ jobs, p.1 = j.key ∧ j.verdict = .ok p.2) :
    (b.keep codec s fresh).Kept codec jobs := by
  induction fresh generalizing s with
  | nil => exact hs
  | cons p fresh ih =>
    rw [forall_mem_cons] at hfresh
    obtain ⟨⟨j, hj, hkey, hverdict⟩, hfresh⟩ := hfresh
    refine ih ?_ hfresh
    show ((s.put codec p.1 p.2 b.now).toOption.getD s).Kept codec jobs
    rw [hkey]
    exact hs.put hj hverdict b.now

/-- Methods of a class get the reports from the store that they get without one, and the store goes
on to have verdicts on jobs. -/
theorem verifyClass_alike (hs : s.Kept codec jobs) (h : Job.Keepable codec jobs)
    (hj : ∀ m ∈ methods, b.job c m ∈ jobs) (hierarchy : List UInt8) :
    Alike b.IsCancelled (fun x y => x.1.map unmarked = y.1.map unmarked ∧
        (∃ s', x.2 = some s' ∧ s'.Kept codec jobs) ∧ y.2 = none)
      (b.verifyClass codec (Fingerprint.hierarchy b.table) (some s) c methods)
      (b.calm.verifyClass codec hierarchy none c methods) := by
  rw [verifyClass_eq, verifyClass_eq]
  refine (Alike.mapM fun m hm => judge_alike hs h (hj m hm) hierarchy).map ?_
  intro judged judged' hall
  have hboth : (judged.map (·.1)).map unmarked = (judged'.map (·.1)).map unmarked ∧
      ∀ p ∈ judged.filterMap (·.2), ∃ j ∈ jobs, p.1 = j.key ∧ j.verdict = .ok p.2 := by
    induction hall with
    | nil => exact ⟨rfl, by simp⟩
    | cons hjudged _ ih =>
      refine ⟨congrArg₂ cons hjudged.1 ih.1, fun p hp => ?_⟩
      obtain ⟨x, hx, hfresh⟩ := mem_filterMap.1 hp
      rcases mem_cons.1 hx with rfl | hx
      · exact hjudged.2 p hfresh
      · exact ih.2 p (mem_filterMap.2 ⟨x, hx, hfresh⟩)
  exact ⟨hboth.1, ⟨_, rfl, kept_keep hs hboth.2⟩, rfl⟩

theorem verifyClasses_alike (hs : s.Kept codec jobs) (h : Job.Keepable codec jobs)
    {selection : Selection} {classes : List Class}
    (hj : ∀ c ∈ classes, ∀ m ∈ selection.methodsOf c, b.job c m ∈ jobs) (hierarchy : List UInt8) :
    Alike (fun e => ∃ owner cause, e = .failed owner cause ∧ b.IsCancelled cause)
      (fun reports reports' => reports.map unmarked = reports'.map unmarked)
      (b.verifyClasses codec (Fingerprint.hierarchy b.table) selection (some s) classes).1
      (b.calm.verifyClasses codec hierarchy selection none classes).1 ∧
    ∃ s', (b.verifyClasses codec (Fingerprint.hierarchy b.table) selection (some s) classes).2 =
      some s' ∧ s'.Kept codec jobs := by
  induction classes generalizing s with
  | nil => exact ⟨.ok rfl, s, rfl, hs⟩
  | cons c classes ih =>
    rw [forall_mem_cons] at hj
    have hclass := verifyClass_alike hs h hj.1 hierarchy
    unfold verifyClasses
    generalize b.verifyClass codec (Fingerprint.hierarchy b.table) (some s) c
      (selection.methodsOf c) = x at hclass ⊢
    generalize b.calm.verifyClass codec hierarchy none c (selection.methodsOf c) = y at hclass ⊢
    cases hclass with
    | error e => exact ⟨.error _, s, rfl, hs⟩
    | off he y => exact ⟨.off ⟨c.name, _, rfl, he⟩ _, s, rfl, hs⟩
    | @ok x y hok =>
      obtain ⟨reports, store⟩ := x
      obtain ⟨reports', store'⟩ := y
      obtain ⟨hreports, ⟨s', rfl, hs'⟩, rfl⟩ := hok
      obtain ⟨hrest, hstore⟩ := ih hs' hj.2
      refine ⟨hrest.map fun others others' hothers => ?_, hstore⟩
      rw [map_append, map_append, hreports, hothers]

end Batch

/-! ### Runs -/

/-- A run on a class set, or on methods of one class. -/
inductive Request where
  | ofClassSet (s : ClassSet) (run : RunSettings) (selection : Selection)
  | ofClass (b : Batch) (c : Class) (methods : List Method)

/-- What a run returns. -/
inductive Response where
  | report (result : Except BatchError Report)
  | reports (result : Except RunError (List MethodReport))

namespace Response

/-- A response whose verdicts are without the runs that they come from. -/
def unmarked : Response → Response
  | .report result => .report (result.map Report.unmarked)
  | .reports result => .reports (result.map (List.map MethodReport.unmarked))

/-- Has the run been called off? -/
def isCancelled : Response → Bool
  | .report (.error (.failed _ .cancelled)) | .reports (.error .cancelled) => true
  | _ => false

end Response

namespace Request

/-- The verifications that a run may make. -/
def jobs : Request → List Job
  | .ofClassSet s run selection =>
    s.classes.flatMap fun c => (selection.methodsOf c).map fun m =>
      Batch.job { run with table := s.table } c m
  | .ofClass b c methods => methods.map (b.job c)

/-- Nobody calls the run off. -/
def IsCalm : Request → Prop
  | .ofClassSet _ run _ => ∀ c m, run.cancelled c m = false
  | .ofClass b _ _ => ∀ c m, b.cancelled c m = false

/-- The same run, when nobody calls it off. -/
def calm : Request → Request
  | .ofClassSet s run selection =>
    .ofClassSet s { run with cancelled := fun _ _ => false } selection
  | .ofClass b c methods => .ofClass b.calm c methods

theorem IsCalm.calm_eq {r : Request} (h : r.IsCalm) : r.calm = r := by
  cases r with
  | ofClassSet s run selection =>
    rw [calm, ← show run.cancelled = _ from funext fun c => funext (h c)]
  | ofClass b c methods =>
    rw [calm, Batch.calm, ← show b.cancelled = _ from funext fun c => funext (h c)]

variable (codec : Codec)

/-- The response to a request, and the store with the new verdicts. -/
def respond (store : Option VerdictStore) : Request → Response × Option VerdictStore
  | .ofClassSet s run selection =>
    let (result, store) := s.verify codec run selection store
    (.report result, store)
  | .ofClass b c methods =>
    match b.verifyClass codec (Fingerprint.hierarchy b.table) store c methods with
    | .error e => (.reports (.error e), store)
    | .ok (reports, store) => (.reports (.ok reports), store)

/-- The responses to requests that share a store. -/
def respondAll (store : Option VerdictStore) : List Request → List Response
  | [] => []
  | r :: rest =>
    let (response, store) := r.respond codec store
    response :: respondAll store rest

/-- What a response with a store may be: the one without a store, if nobody calls the run off; and
else either this, or that the run has been called off. -/
structure Answers (r : Request) (response : Response) : Prop where
  ofCalm : r.IsCalm → response.unmarked = (r.respond codec none).1.unmarked
  ofAny : response.unmarked = (r.calm.respond codec none).1.unmarked ∨
    ¬r.IsCalm ∧ response.isCancelled = true

variable {codec}

theorem answers_of_calm {r : Request} {response : Response}
    (h : response.unmarked = (r.calm.respond codec none).1.unmarked ∨
      ¬r.IsCalm ∧ response.isCancelled = true) : Answers codec r response where
  ofAny := h
  ofCalm hcalm := by
    rcases h with h | ⟨hdisturbed, -⟩
    · rwa [hcalm.calm_eq] at h
    · exact absurd hcalm hdisturbed

variable {jobs : List Job} {s : VerdictStore}

/-- A response from the store is one that it may be, and the store goes on to have verdicts on
jobs. -/
theorem respond_answers (hs : s.Kept codec jobs) (h : Job.Keepable codec jobs) {r : Request}
    (hj : ∀ j ∈ r.jobs, j ∈ jobs) :
    Answers codec r (r.respond codec (some s)).1 ∧
      ∃ s', (r.respond codec (some s)).2 = some s' ∧ s'.Kept codec jobs := by
  cases r with
  | ofClassSet set run selection =>
    have hj : ∀ c ∈ set.classes, ∀ m ∈ selection.methodsOf c,
        Batch.job ⟨run, set.table⟩ c m ∈ jobs := fun c hc m hm =>
      hj _ (mem_flatMap.2 ⟨c, hc, mem_map_of_mem hm⟩)
    obtain ⟨hreports, hstore⟩ := Batch.verifyClasses_alike hs h hj []
    by_cases hnone : (selection.isLimited &&
        set.classes.all fun c => (selection.methodsOf c).isEmpty) = true
    · dsimp only [respond, ClassSet.verify]
      rw [if_pos hnone]
      refine ⟨answers_of_calm (.inl ?_), s, rfl, hs⟩
      dsimp only [calm, respond, ClassSet.verify]
      rw [if_pos hnone]
    · dsimp only [respond, ClassSet.verify]
      rw [if_neg hnone]
      refine ⟨answers_of_calm ?_, hstore⟩
      dsimp only [calm, respond, ClassSet.verify]
      rw [if_neg hnone]
      have hreport := hreports.map (S := fun r r' : Report => r.unmarked = r'.unmarked)
        (f := Report.ofMethods run.runId) (g := Report.ofMethods run.runId)
        fun _ _ => congrArg (Report.ofMethods run.runId)
      rcases hreport.map_eq_or fun _ _ h => h with
        hsame | ⟨_, ⟨owner, _, rfl, rfl, c, m, hcancelled⟩, herror⟩
      · exact .inl (congrArg Response.report hsame)
      · refine .inr ⟨fun hcalm => ?_, ?_⟩
        · exact Bool.false_ne_true ((hcalm c m).symm.trans hcancelled)
        · exact congrArg (fun result => Response.isCancelled (.report result)) herror
  | ofClass b c methods =>
    have hj : ∀ m ∈ methods, b.job c m ∈ jobs := fun m hm => hj _ (mem_map_of_mem hm)
    have hclass := Batch.verifyClass_alike hs h hj (hierarchy b.calm.table)
    rw [respond]
    generalize b.verifyClass codec (hierarchy b.table) (some s) c methods = x at hclass ⊢
    generalize hy : b.calm.verifyClass codec (hierarchy b.calm.table) none c methods = y at hclass
    cases hclass with
    | @ok x y hok =>
      obtain ⟨hreports, ⟨s', hstore, hs'⟩, -⟩ := hok
      refine ⟨answers_of_calm (.inl ?_), s', hstore, hs'⟩
      rw [calm, respond, hy]
      exact congrArg (Response.reports <| .ok ·) hreports
    | error e =>
      refine ⟨answers_of_calm (.inl ?_), s, rfl, hs⟩
      rw [calm, respond, hy]
    | off he y =>
      obtain ⟨rfl, c, m, hcancelled⟩ := he
      refine ⟨answers_of_calm (.inr ⟨fun hcalm => ?_, rfl⟩), s, rfl, hs⟩
      exact Bool.false_ne_true ((hcalm c m).symm.trans hcancelled)

theorem respondAll_answers (hs : s.Kept codec jobs) (h : Job.Keepable codec jobs)
    {requests : List Request} (hj : ∀ r ∈ requests, ∀ j ∈ r.jobs, j ∈ jobs) :
    Forall₂ (Answers codec) requests (respondAll codec (some s) requests) := by
  induction requests generalizing s with
  | nil => exact .nil
  | cons r requests ih =>
    rw [forall_mem_cons] at hj
    obtain ⟨hanswers, s', hstore, hs'⟩ := respond_answers hs h hj.1
    show Forall₂ _ _ ((r.respond codec (some s)).1 ::
      respondAll codec (r.respond codec (some s)).2 requests)
    rw [hstore]
    exact .cons hanswers (ih hs' hj.2)

end Request

/-- Runs that share a store and that nobody calls off give the reports that they give without one, up
to the marks of the run that a verdict comes from, and fail as they fail without one. A run that is
called off ends as if it were not, or fails for that. Two verifications give the same verdict or
failure when the records of their keys agree, and so when the methods, what their classes show to
them and what all classes show to others agree. Reports do not depend on how many workers there are
or in what order they come to an end. -/
theorem store_is_transparent (codec : Codec) (requests : List Request)
    (h : Job.Keepable codec (requests.flatMap Request.jobs)) :
    Forall₂ (Request.Answers codec) requests (Request.respondAll codec (some {}) requests) ∧
      (∀ i j : Job, i.Fits → j.Fits → i.methodRecord = j.methodRecord →
        i.hierarchyRecord = j.hierarchyRecord → i.options.strict = j.options.strict →
        i.options.traceLimit = j.options.traceLimit →
        i.verdict.map Verdict.unmarked = j.verdict.map Verdict.unmarked) ∧
      (∀ i j : Job, i.method = j.method → i.owner.withoutMembers = j.owner.withoutMembers →
        i.table.outlines = j.table.outlines → i.options.strict = j.options.strict →
        i.options.traceLimit = j.options.traceLimit →
        i.verdict.map Verdict.unmarked = j.verdict.map Verdict.unmarked) ∧
      ∀ (b : Batch) (c : Class) (hierarchy : List UInt8) (store : Option VerdictStore)
        (methods : List Method) (limit : Nat),
        (0 < limit → ∃ crew, Crew.Reaches (b.reportOn c codec hierarchy store) limit methods crew ∧
          crew.IsFinished) ∧
        ∀ crew, Crew.Reaches (b.reportOn c codec hierarchy store) limit methods crew →
          crew.IsFinished →
          crew.Agrees ((b.verifyClass codec hierarchy store c methods).map (·.1)) := by
  refine ⟨?_, ?_, ?_, ?_⟩
  · refine Request.respondAll_answers VerdictStore.kept_empty h ?_
    intro r hr j hj
    exact mem_flatMap.2 ⟨r, hr, hj⟩
  · intro i j hi hj hmethod hhierarchy hstrict hlimit
    exact Job.verdict_of_records hi hj hmethod hhierarchy (Job.options_eq hstrict hlimit)
  · intro i j hmethod howner hclasses hstrict hlimit
    exact Job.verdict_of_parts hmethod howner hclasses (Job.options_eq hstrict hlimit)
  · intro b c hierarchy store methods limit
    refine ⟨fun hlimit => Crew.exists_finished hlimit .start, fun crew hreaches hfinished => ?_⟩
    rw [Batch.reports_eq_mapM]
    exact Crew.agrees_of_reaches hreaches hfinished

/-! ### Two runs -/

/-- A method that returns at once. -/
def returning : Method :=
  { name := "run", descriptor := "()V", access := .staticBit, code := [0xb1] }

/-- A class with that method and another one, whose code is given. -/
def returningClass (other : List UInt8) : Class :=
  { name := "A", super := none
    methods := [returning,
      { name := "other", descriptor := "()V", access := .staticBit, code := other }] }

/-- The verification of the method that returns, in a run of a name. -/
def returningJob (other : List UInt8) (runId : String) : Job :=
  { table := ⟨[returningClass other]⟩, options := {}, runId, owner := returningClass other
    method := returning }

/-- The method that returns is verified twice, and the code of the other one changes in between. -/
def twoRuns : List Request :=
  [.ofClassSet { table := ⟨[returningClass [0xb1]]⟩, classes := [returningClass [0xb1]] }
      { options := {}, runId := "first", now := 1 } { methods := some ["run"] },
   .ofClass { table := ⟨[returningClass [0xbf]]⟩, options := {}, runId := "second", now := 2 }
      (returningClass [0xbf]) [returning]]

theorem jobs_twoRuns : twoRuns.flatMap Request.jobs =
    [returningJob [0xb1] "first", returningJob [0xbf] "second"] := rfl

theorem methodRecord_returningJob : (returningJob [0xbf] "second").methodRecord =
    (returningJob [0xb1] "first").methodRecord := by
  decide +kernel

theorem hierarchyRecord_returningJob : (returningJob [0xbf] "second").hierarchyRecord =
    (returningJob [0xb1] "first").hierarchyRecord := by
  decide +kernel

theorem records_returningJob : (returningJob [0xbf] "second").records =
    (returningJob [0xb1] "first").records := by
  unfold Job.records Job.keyRecord
  rw [methodRecord_returningJob, hierarchyRecord_returningJob]
  rfl

theorem keepable_twoRuns : Job.Keepable .cbor (twoRuns.flatMap Request.jobs) := by
  rw [jobs_twoRuns]
  refine ⟨by decide +kernel, ?_, ?_⟩
  · have hrecords : ∀ j ∈ [returningJob [0xb1] "first", returningJob [0xbf] "second"],
        j.records = (returningJob [0xb1] "first").records := by
      intro j hj
      simp only [mem_cons, not_mem_nil, or_false] at hj
      rcases hj with rfl | rfl
      · rfl
      · exact records_returningJob
    have hdigests : ((returningJob [0xb1] "first").records.map Sha256.digest).Nodup := by
      decide +kernel
    intro i hi j hj a ha b hb heq
    rw [hrecords i hi] at ha
    rw [hrecords j hj] at hb
    exact inj_on_of_nodup_map hdigests ha hb heq
  · have hverdict : ∀ j ∈ [returningJob [0xb1] "first", returningJob [0xbf] "second"],
        j.verdict = .ok { runId := j.runId, owner := "A", method := "run()V", steps := 1 } := by
      decide +kernel
    have hpayload : ∀ runId ∈ ["first", "second"], Codec.cbor.decode? (Codec.cbor.encode (ofVerdict
        { runId, owner := "A", method := "run()V", steps := 1 })) =
          some (ofVerdict
            { runId, owner := "A", method := "run()V", steps := 1 }) := by
      decide +kernel
    intro j hj v hv
    rw [hverdict j hj] at hv
    cases hv
    refine .inr (hpayload j.runId ?_)
    exact mem_map_of_mem (f := Job.runId) hj

theorem store_is_transparent_twoRuns :
    Job.Keepable .cbor (twoRuns.flatMap Request.jobs) ∧
      Forall₂ (Request.Answers .cbor) twoRuns (Request.respondAll .cbor (some {}) twoRuns) ∧
      (returningJob [0xbf] "second").verdict.map Verdict.unmarked =
        (returningJob [0xb1] "first").verdict.map Verdict.unmarked := by
  obtain ⟨hresponses, hrecords, -⟩ := store_is_transparent .cbor twoRuns keepable_twoRuns
  exact ⟨keepable_twoRuns, hresponses, hrecords _ _ (by decide +kernel) (by decide +kernel)
    methodRecord_returningJob hierarchyRecord_returningJob rfl rfl⟩

/-- The method that returns is verified in a run that has been called off. -/
def calledOff : Batch :=
  { table := ⟨[returningClass [0xb1]]⟩, options := {}, runId := "second", now := 2
    cancelled := fun _ _ => true }

/-- A verification in a run that has been called off fails, where the same verification gives a
verdict in another run; and with a store that has this verdict, the run does not fail. -/
theorem cancelled_run_answered :
    calledOff.outcome (returningClass [0xb1]) returning = .error .cancelled ∧
      (calledOff.calm.outcome (returningClass [0xb1]) returning).isOk = true ∧
      ((Request.ofClass calledOff (returningClass [0xb1]) [returning]).respond .cbor
        none).1.isCancelled = true ∧
      (Request.respondAll .cbor (some {})
        [.ofClass calledOff.calm (returningClass [0xb1]) [returning],
         .ofClass calledOff (returningClass [0xb1]) [returning]]).map Response.isCancelled =
        [false, false] := by
  decide +kernel

end Bytecode
