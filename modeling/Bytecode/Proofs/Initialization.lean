import Mathlib.Data.List.Infix
import Bytecode.Proofs.Objects
import Bytecode.Proofs.PathSoundness

/-!
The use of objects before a constructor was called on them.

A run along a path numbers the objects (`objectFrame`), so that at its end each value that is still
a marker stands for one object on which no constructor was called on that path. The check of an
instruction refuses such objects wherever it uses one, except for a call of the right constructor
and for the fields that a constructor may assign early; but it looks at the frame of data flow.

Data flow goes wrong in two ways. A merge of a local variable takes a marker for the initialized
object when the other frame has a reference there, be it null (`barkAnyway`); and in a subroutine an
allocation may meet a marker of its own. `uninitialized_unused` says that there are no others: along
a path on which neither happens, no instruction uses an object before its constructor was called.
-/
namespace Bytecode

open FlowGraph List MethodContext ValueType

namespace MethodContext

/-! ### Uses of objects -/

/-- Does a constructor of a class construct the object of a marker? -/
def constructs (c : MethodContext) (owner : String) : ValueType → Bool
  | .uninitialized name _ => owner = name
  | .uninitializedThis _ => owner = c.owner.name || owner = c.owner.superName
  | _ => false

/-- Does an instruction name a field of the method's own class? -/
def ownsField (c : MethodContext) (ins : Instruction) : Bool :=
  (c.resolveField ins).toOption.any fun r => r.decl.name = c.owner.name

/-- A place on the stack where an instruction uses an object, and the markers that it may find
there. -/
structure Use where
  depth : Nat
  may : ValueType → Bool := fun _ => false

/-- The objects that an instruction uses: it invokes a method on them, reads or assigns a field of
them, passes them on as arguments, stores them into a field or an array, returns or throws them. -/
def uses (c : MethodContext) (ins : Instruction) : List Use :=
  match ins.action with
  | .invoke kind =>
    match c.methodOperand ins kind with
    | .ok (ref, type) =>
      let receiver : Use :=
        ⟨type.args.length, fun v => ref.name = constructorName && c.constructs ref.owner v⟩
      (List.range type.args.length).map ({ depth := · }) ++
        if kind = .ofStatic ∨ kind = .ofDynamic then [] else [receiver]
    | .error _ => []
  | .field .put => [{ depth := 0 }, ⟨1, fun v => v.isUninitializedThis && c.ownsField ins⟩]
  | .field .get | .field .putStatic | .arrayStore .reference | .raise | .leave (some .reference) =>
    [{ depth := 0 }]
  | _ => []

/-- Are all objects that an instruction uses initialized, or such that it may use them before? -/
def usesInitialized (c : MethodContext) (ins : Instruction) (f : Frame) : Bool :=
  (c.uses ins).all fun use =>
    f.stack.values[use.depth]?.all fun v => !v.isUninitialized || use.may v

variable {c : MethodContext} {g : FlowGraph} {code : Array Instruction} {s : FlowState}
  {f e out : Frame} {ins : Instruction} {ids : String → Int → Int} {v w : ValueType} {use : Use}

theorem usesInitialized_iff : c.usesInitialized ins f = true ↔
    ∀ use ∈ c.uses ins, ∀ v, f.stack.values[use.depth]? = some v → v.isUninitialized = true →
      use.may v = true := by
  simp only [usesInitialized, all_eq_true, Option.all_eq_true, Bool.or_eq_true,
    Bool.not_eq_true', ← Bool.not_eq_true, ← imp_iff_not_or]

theorem may_relabel (hmem : use ∈ c.uses ins) : use.may (v.relabel ids) = use.may v := by
  have hconstructs : ∀ owner, c.constructs owner (v.relabel ids) = c.constructs owner v := by
    intro owner
    cases v <;> rfl
  unfold uses at hmem
  split at hmem
  · split at hmem
    · rcases mem_append.1 hmem with hmem | hmem
      · obtain ⟨i, -, rfl⟩ := mem_map.1 hmem
        rfl
      · split at hmem
        · cases hmem
        · simp only [mem_singleton.1 hmem, hconstructs]
    · cases hmem
  · rcases mem_cons.1 hmem with rfl | hmem
    · rfl
    · simp only [mem_singleton.1 hmem, isUninitializedThis_relabel]
  · rw [mem_singleton.1 hmem]
  · rw [mem_singleton.1 hmem]
  · rw [mem_singleton.1 hmem]
  · rw [mem_singleton.1 hmem]
  · rw [mem_singleton.1 hmem]
  · cases hmem

/-! ### What the checks refuse -/

theorem isUninitialized_of_isReference (hv : v.isReference = true) : v.isUninitialized = false := by
  cases v <;> simp_all [isReference, isUninitialized]

theorem isUninitialized_of_isClass (hv : v.isClass = true) : v.isUninitialized = false := by
  cases v <;> simp_all [isClass, isUninitialized]

theorem Assigns.isUninitialized {t : FieldType} (h : c.Assigns v (.ofFieldType t)) :
    v.isUninitialized = false := by
  have hplain := isPlain_ofFieldType t
  generalize ofFieldType t = want at h hplain
  cases want with
  | reference => exact h.1
  | uninitialized | uninitializedThis => cases hplain
  | _ =>
    have heq : v = _ := h
    rw [heq]
    rfl

theorem constructs_of_checkConstructorCall {owner : String}
    (h : c.checkConstructorCall ins owner v = .ok ()) : c.constructs owner v = true := by
  cases v with
  | uninitializedThis name =>
    simp only [checkConstructorCall, ite_reject_eq_ok, not_and_or, not_not] at h
    simpa [constructs] using h.1
  | uninitialized name =>
    simp only [checkConstructorCall, ite_reject_eq_ok, not_not] at h
    simpa [constructs] using h.1
  | _ => cases h

theorem uses_of_checkInvoke {kind : InvokeKind} (hact : ins.action = .invoke kind)
    (hcheck : c.checkInvoke ins kind f = .ok ()) : c.usesInitialized ins f = true := by
  obtain ⟨r, hr, harguments, htarget⟩ := checkInvoke_eq_ok.1 hcheck
  obtain ⟨hoperand, htargets⟩ := resolveMethod_ok hr
  rw [usesInitialized_iff]
  intro use hmem v hv hmarker
  simp only [uses, hact, hoperand] at hmem
  rcases mem_append.1 hmem with hmem | hmem
  · obtain ⟨depth, hdepth, rfl⟩ := mem_map.1 hmem
    have hlt := mem_range.1 hdepth
    -- The last argument is on top.
    have hlt' : r.type.args.length - 1 - depth < r.type.args.length := by omega
    obtain ⟨got, hgot, hassigns⟩ := checkArguments_eq_ok.1 harguments _ _ (getElem?_eq_getElem hlt')
    have heq : r.type.args.length - 1 - (r.type.args.length - 1 - depth) = depth := by omega
    rw [heq, hv] at hgot
    cases hgot
    rw [hassigns.isUninitialized] at hmarker
    cases hmarker
  · split at hmem
    · cases hmem
    · next hkind =>
      rw [not_or] at hkind
      obtain rfl := mem_singleton.1 hmem
      obtain ⟨target, hsome⟩ := htargets hkind.2
      have hreceiver := htarget target hsome
      rw [if_neg hkind.1] at hreceiver
      obtain ⟨-, -, got, hgot, hcall⟩ := hreceiver
      cases hv.symm.trans hgot
      split at hcall
      · next hname => simp [hname, constructs_of_checkConstructorCall hcall]
      · have href := (checkReceiver_eq_ok.1 hcall).1
        rw [isUninitialized_of_isReference href] at hmarker
        cases hmarker

theorem usesInitialized_of_top (huses : c.uses ins = [{ depth := 0 }])
    (htop : f.stack.values[0]? = some v) (hv : v.isUninitialized = false) :
    c.usesInitialized ins f = true := by
  rw [usesInitialized_iff, huses]
  intro use hmem w hw hmarker
  obtain rfl := mem_singleton.1 hmem
  cases htop.symm.trans hw
  rw [hv] at hmarker
  cases hmarker

theorem uses_of_checkField {access : FieldAccess} (hact : ins.action = .field access)
    (hcheck : c.checkField ins access f = .ok ()) : c.usesInitialized ins f = true := by
  obtain ⟨r, hr, -, hstore, hobject⟩ := checkField_eq_ok.1 hcheck
  obtain ⟨-, type, -, htype⟩ := resolveField_ok hr
  have hstored : access = .putStatic ∨ access = .put →
      ∃ got, f.stack.values[0]? = some got ∧ got.isUninitialized = false := by
    intro hput
    obtain ⟨⟨got, hgot, hassigns⟩, -⟩ := checkFieldStore_eq_ok.1 (hstore hput)
    rw [htype] at hassigns
    exact ⟨got, hgot, hassigns.isUninitialized⟩
  cases access with
  | getStatic => simp [usesInitialized, uses, hact]
  | putStatic =>
    obtain ⟨got, hgot, hnot⟩ := hstored (.inl rfl)
    exact usesInitialized_of_top (by simp only [uses, hact]) hgot hnot
  | get =>
    obtain ⟨got, hgot, hholds, -⟩ := checkFieldObject_eq_ok.1 (hobject (by simp))
    refine usesInitialized_of_top (by simp only [uses, hact]) hgot ?_
    rcases hholds with rfl | hown | ⟨hclass, -⟩
    · rfl
    · simp at hown
    · exact isUninitialized_of_isClass hclass
  | put =>
    obtain ⟨got, hgot, hnot⟩ := hstored (.inr rfl)
    obtain ⟨object, hobject, hholds, -⟩ := checkFieldObject_eq_ok.1 (hobject (by simp))
    rw [usesInitialized_iff]
    intro use hmem v hv hmarker
    simp only [uses, hact, mem_cons, not_mem_nil, or_false] at hmem
    rcases hmem with rfl | rfl
    · cases hgot.symm.trans hv
      rw [hnot] at hmarker
      cases hmarker
    · simp only [or_true, decide_true, if_true] at hobject
      cases hobject.symm.trans hv
      rcases hholds with rfl | hown | ⟨hclass, -⟩
      · cases hmarker
      · simp only [or_true, decide_true, Bool.and_true, Bool.and_eq_true] at hown
        simp [ownsField, hr, hown.1, of_decide_eq_true hown.2, Except.toOption]
      · rw [isUninitialized_of_isClass hclass] at hmarker
        cases hmarker

/-- The check of an instruction refuses objects that are not initialized. -/
theorem usesInitialized_of_check (hcheck : c.checkValues ins f = .ok ()) :
    c.usesInitialized ins f = true := by
  cases hact : ins.action with simp only [checkValues, hact] at hcheck
  | invoke => exact uses_of_checkInvoke hact hcheck
  | field => exact uses_of_checkField hact hcheck
  | arrayStore access =>
    by_cases haccess : access = .reference
    · subst haccess
      obtain ⟨⟨got, hgot, href⟩, -⟩ := Frame.checkArrayStore_eq_ok.1 hcheck
      exact usesInitialized_of_top (by simp only [uses, hact]) hgot
        (isUninitialized_of_isReference href)
    · have hnone : c.uses ins = [] := by
        cases access <;> simp_all [uses]
      simp [usesInitialized, hnone]
  | raise =>
    obtain ⟨got, hgot, href, -⟩ := checkRaise_eq_ok.1 hcheck
    exact usesInitialized_of_top (by simp only [uses, hact]) hgot
      (isUninitialized_of_isReference href)
  | leave value =>
    rcases value with _ | n | _
    · simp [usesInitialized, uses, hact]
    · simp [usesInitialized, uses, hact]
    · have hreturns := checkReturn_eq_ok.1 hcheck
      unfold Returns at hreturns
      cases hresult : c.type.result with
        simp only [hresult] at hreturns
      | some result =>
        obtain ⟨-, got, hgot, href, -⟩ := hreturns
        exact usesInitialized_of_top (by simp only [uses, hact]) hgot
          (isUninitialized_of_isReference href)
  | _ => simp [usesInitialized, uses, hact]

theorem usesInitialized_of_mirrors (h : f.Mirrors ids e) (hf : c.usesInitialized ins f = true) :
    c.usesInitialized ins e = true := by
  rw [usesInitialized_iff] at hf ⊢
  intro use hmem w hw hmarker
  obtain ⟨v, hv, hshows⟩ := exists_of_forall₂ h.stack hw
  rw [hshows.isUninitialized] at hmarker
  rw [hshows.eq_relabel hmarker, may_relabel hmem]
  exact hf use hmem v hv hmarker

/-! ### Runs with numbered objects -/

/-- The frame at the end of a path along which objects are numbered. The number of an object is that
of the leg that allocates it. -/
def objectFrame (c : MethodContext) (g : FlowGraph) : List Leg → Except InternalError Frame
  | [] => c.initialFrame
  | leg :: before => do
    let e ← c.objectFrame g before
    let out ← c.runNumbered before.length (g.instruction leg.node) e
    leg.turn.frame e out

/-- The frame of a run with numbered objects goes with a frame of data flow at the end of a path. -/
def Tracks (c : MethodContext) (g : FlowGraph) (legs : List Leg) (f : Frame) : Prop :=
  ∃ ids e, c.objectFrame g legs = .ok e ∧ f.Mirrors ids e ∧ f.Numbered ids legs.length

/-- A path comes to an allocation in a subroutine, where the stored frame has a marker of the same
allocation. -/
def MeetsOwnMarker (c : MethodContext) (g : FlowGraph) (s : FlowState) (legs : List Leg) : Prop :=
  ∃ after turn before p k carried input, legs = after ++ ⟨p.node, turn⟩ :: before ∧
    Along c g s before p k carried input ∧ (g.instruction p.node).action = .allocate ∧
    g.ownerOf p.node ≠ some 0 ∧ input.HasSite (g.instruction p.node).pos

variable {legs : List Leg} {p : Point} {k : CallKey} {carried next : Frame} {n : Nat}

/-- Where a frame has the marker of an allocation on its entry, the allocation is in a
subroutine. -/
theorem ownerOf_of_hasSite (h : Ready c g code) (hsolve : c.solve g = (s, .ok ()))
    (hn : n < g.size) (hf : s.inputs.get? n k = some f) (hhas : f.HasSite (g.instruction n).pos) :
    g.ownerOf n ≠ some 0 := by
  obtain ⟨s₀, hreaches, hsame⟩ := (solve_reaches hsolve).1 rfl
  rw [hsame.1] at hf
  have hregions := inRegions_of_reaches h hreaches
  obtain ⟨k', hne, hk'⟩ := (Fresh.of_reaches h hn hreaches).elsewhere k f hf hhas
  obtain ⟨r, howner, htop, -⟩ := hregions.owned (.inl (Option.isSome_iff_exists.2 ⟨f, hf⟩))
  obtain ⟨r', howner', htop', -⟩ := hregions.owned (.inl hk')
  intro hzero
  -- At the top level both contexts are the same.
  cases howner.symm.trans hzero
  cases howner'.symm.trans hzero
  exact hne ((htop'.2 rfl).trans (htop.2 rfl).symm)

theorem tracks_initialFrame (hf : c.initialFrame = .ok f) : c.Tracks g [] f := by
  have hthis : ∀ v, f.Has v → v.isUninitialized = true → v.relabel (fun _ _ => 0) = v := by
    intro v hv hmarker
    obtain ⟨rfl, -⟩ := has_initialFrame hf hmarker hv
    rfl
  refine ⟨fun _ _ => 0, f, hf, ⟨?_, ?_, rfl⟩, ?_, ?_⟩
  · rw [values_initialFrame hf]
    exact .nil
  · refine List.forall₂_same.2 fun v hmem => ?_
    have hv : f.Has v := .inr (Array.mem_toList_iff.1 hmem)
    by_cases hunknown : v = .unknown
    · exact .inl hunknown
    · cases hmarker : v.isUninitialized with
      | false => exact .inr (.refl hmarker hunknown)
      | true =>
        have hshows : Shows (fun _ _ => 0) v _ := .marker hmarker
        rw [hthis v hv hmarker] at hshows
        exact .inr hshows
  · intro v v' hv hv' hmarker hmarker' heq
    rwa [hthis v hv hmarker, hthis v' hv' hmarker'] at heq
  · intro name site hmarker
    cases (has_initialFrame hf rfl hmarker).1

/-- An instruction keeps it, unless it is an allocation that meets a marker of its own. -/
theorem exists_numbered_run {number : Nat} (hfits : c.Fits f) (hchecked : c.Checked ins)
    (hcheck : c.check ins f = .ok ()) (hrun : c.run ins f = .ok out) (hfe : f.Mirrors ids e)
    (hnumbered : f.Numbered ids number) :
    (∃ ids' out', c.runNumbered number ins e = .ok out' ∧ out.Mirrors ids' out' ∧
      out.Numbered ids' (number + 1)) ∨ ins.action = .allocate ∧ f.HasSite ins.pos := by
  by_cases hnew : ins.action = .allocate
  · by_cases hsite : f.HasSite ins.pos
    · exact .inr ⟨hnew, hsite⟩
    · obtain ⟨name, out', hrun', hout, hmirrors⟩ := hfe.allocate hnew hsite hrun
      exact .inl ⟨_, out', hrun', hmirrors, hout ▸ hnumbered.allocate hsite⟩
  · obtain ⟨out', hrun', hmirrors⟩ :=
      hfe.run hfits hnumbered.distinct hchecked hnew hcheck hrun
    refine .inl ⟨ids, out', hrun', hmirrors, hnumbered.of_has (Nat.le_succ number) ?_⟩
    intro v hmarker hv
    rcases hv.of_effect (effect_run hrun) hmarker with hv | ⟨hallocate, -⟩
    · exact hv
    · exact absurd hallocate hnew

/-- So does a turn of a path. -/
theorem exists_numbered_turn {number : Nat} {turn : Turn} (e : Frame) {e' : Frame}
    (hcarries : turn.frame f out = .ok carried) (hout : out.Mirrors ids e')
    (hnumbered : out.Numbered ids number) :
    ∃ next, turn.frame e e' = .ok next ∧ carried.Mirrors ids next ∧
      carried.Numbered ids number := by
  rcases frame_eq_ok.1 hcarries with ⟨hturn, rfl⟩ | ⟨guard, rfl, hroom, rfl⟩
  · exact ⟨e', frame_eq_ok.2 (.inl ⟨hturn, rfl⟩), hout, hnumbered⟩
  · rw [← hout.max] at hroom
    refine ⟨_, frame_eq_ok.2 (.inr ⟨guard, rfl, hroom, rfl⟩), ⟨?_, hout.locals, hout.max⟩, ?_⟩
    · exact .cons ((uniform_shows ids).of_isPlain rfl) .nil
    · exact hnumbered.of_has (Nat.le_refl _) fun v hmarker hv => hv.of_handlerFrame hcarries hmarker

/-- So does a merge, unless it takes an object for initialized. -/
theorem tracks_of_covers (hcarried : c.Tracks g legs carried)
    (hcovers : next.Covers c.hierarchy carried) (hmax : next.stack.max = carried.stack.max) :
    c.Tracks g legs next ∨ carried.TakesForInitialized next := by
  obtain ⟨ids, e, he, hmirrors, hnumbered⟩ := hcarried
  rcases hmirrors.of_covers hcovers hmax with hnext | htakes
  · exact .inl ⟨ids, e, he, hnext,
      hnumbered.of_has (Nat.le_refl _) fun v hmarker hv => hv.of_covers hcovers hmarker⟩
  · exact .inr htakes

/-- Stored frames along a path go with a run with numbered objects, until one of the two things
happens that mislead data flow. The induction is on the path. -/
theorem tracks_along (h : Solved c g code s) (hsolve : c.solve g = (s, .ok ()))
    (halong : Along c g s legs p k carried f) :
    c.Tracks g legs f ∨ MeetsOn c g s Frame.TakesForInitialized legs [] ∨
      MeetsOwnMarker c g s legs := by
  induction halong with
  | start initial stored covers =>
    obtain ⟨f, hf, hfits⟩ := initialFrame_proceeds h.ready
    cases hf.symm.trans initial
    have hmax := (h.fits (.inl stored)).max.trans hfits.max.symm
    rcases tracks_of_covers (tracks_initialFrame initial) covers hmax with hnext | htakes
    · exact .inl hnext
    · exact .inr (.inl ⟨[], [], _, _, _, _, rfl, .start initial stored covers, htakes⟩)
  | @turn before p q k k' turn _ input out carried next along check run output follow turns carries
      stored covers ih =>
    have hp := h.lt along.stored
    rcases ih with ⟨ids, e, he, hmirrors, hnumbered⟩ | htakes |
      ⟨after, turn', before', p', k₀, carried', input', rfl, hown⟩
    · rcases exists_numbered_run (h.fits (.inl along.stored)) (h.ready.checked hp) check run
        hmirrors hnumbered with ⟨ids', out', hrun', hmirrors', hnumbered'⟩ | ⟨hnew, hsite⟩
      · obtain ⟨e', hturn, hmirrors', hnumbered'⟩ :=
          exists_numbered_turn e carries hmirrors' hnumbered'
        have htracks : c.Tracks g (⟨p.node, turn⟩ :: before) carried :=
          ⟨ids', e', by simp only [objectFrame, he, hrun', bind, Except.bind, hturn], hmirrors',
            hnumbered'⟩
        have hmax : next.stack.max = carried.stack.max := by
          rw [max_of_frame carries, (h.fits (.inl stored)).max, (h.fits (.inr output)).max]
        rcases tracks_of_covers htracks covers hmax with hnext | htakes
        · exact .inl hnext
        · have halong := along.turn check run output follow turns carries stored covers
          rw [← append_nil (_ :: before)] at halong
          exact .inr (.inl (.here halong htakes))
      · exact .inr (.inr ⟨[], turn, before, p, k, _, input, rfl, along, hnew,
          ownerOf_of_hasSite h.ready hsolve hp along.stored hsite, hsite⟩)
    · exact .inr (.inl htakes.cons)
    · exact .inr (.inr ⟨_ :: after, turn', before', p', k₀, carried', input', rfl, hown⟩)

end MethodContext

/-- Along every path of an accepted method, objects can be numbered as they are allocated, and the
instruction at its end uses none on which no constructor was called along the path; unless a merge
of what the path itself carries has taken an object for initialized, or the path comes to an
allocation in a subroutine where the frame has a marker of that allocation. -/
theorem uninitialized_unused (t : ClassTable) (options : VerifyOptions) (runId : String)
    (owner : Class) (m : Method) (verdict : Verdict) (prepared : PreparedCode) (g : FlowGraph)
    (hprepared : m.prepare owner.pool = .ok prepared)
    (hg : FlowGraph.build prepared.code m.handlers owner.pool options.strict = .ok g)
    (hcode : m.hasCode = true) (hverdict : verify t options runId owner m = .ok verdict)
    (haccepted : verdict.status = .accepted) (legs : List Leg) (p : Point)
    (hwalk : g.walk legs = some p) :
    (∃ e, objectFrame ⟨t, owner, m, prepared.type⟩ g legs = .ok e ∧
      usesInitialized ⟨t, owner, m, prepared.type⟩ (g.instruction p.node) e = true) ∨
    ∃ s, (verifyTraced t options runId owner m).flow = some s ∧
      (MethodContext.MeetsOn ⟨t, owner, m, prepared.type⟩ g s Frame.TakesForInitialized legs [] ∨
        MethodContext.MeetsOwnMarker ⟨t, owner, m, prepared.type⟩ g s legs) := by
  obtain ⟨s, hflow, hsolve⟩ := solve_of_accepted hprepared hg hcode hverdict haccepted
  have hsolved := MethodContext.Solved.of_solve (.of_build hprepared hg) t.coherent hsolve
  obtain ⟨k, carried, f, calls, halong, -⟩ := exists_along hsolved hwalk
  rcases tracks_along hsolved hsolve halong with ⟨ids, e, he, hmirrors, -⟩ | hmisled
  · obtain ⟨hcheck, -⟩ := hsolved.fixed.executed _ _ _ halong.stored
    have huses := usesInitialized_of_check (check_eq_ok.1 hcheck).2
    exact .inl ⟨e, he, usesInitialized_of_mirrors hmirrors huses⟩
  · exact .inr ⟨s, hflow, hmisled⟩

/-! ### Paths without merges -/

namespace MethodContext

variable {c : MethodContext} {g : FlowGraph} {s : FlowState} {legs : List Leg} {p : Point}
  {k : CallKey} {carried next : Frame}

/-- What a path carries to its end, in the contexts of its own calls. -/
def carriedFrame (c : MethodContext) (g : FlowGraph) (s : FlowState) : List Leg → Option Frame
  | [] => c.initialFrame.toOption
  | leg :: before => do
    let p ← g.walk before
    let input ← s.inputs.get? p.node p.key
    let out ← s.outputs.get? p.node p.key
    (leg.turn.frame input out).toOption

/-- On a path at most one call is open at a time, and every frame is stored as it is carried. -/
def Unmerged (c : MethodContext) (g : FlowGraph) (s : FlowState) (legs : List Leg) : Prop :=
  ∀ before ∈ legs.tails, ∀ p ∈ g.walk before,
    p.calls.length ≤ 1 ∧ s.inputs.get? p.node p.key = c.carriedFrame g s before

instance (c : MethodContext) (g : FlowGraph) (s : FlowState) (legs : List Leg) :
    Decidable (c.Unmerged g s legs) :=
  inferInstanceAs (Decidable (∀ before ∈ legs.tails, ∀ p ∈ g.walk before, _ ∧ _ = _))

theorem Unmerged.of_suffix {before : List Leg} (h : c.Unmerged g s legs)
    (hbefore : before <:+ legs) : c.Unmerged g s before := fun l hl =>
  h l ((mem_tails _ _).2 (((mem_tails _ _).1 hl).trans hbefore))

/-- There the contexts are those of the path's own calls. -/
theorem Along.eq_of_unmerged (hunmerged : c.Unmerged g s legs)
    (h : Along c g s legs p k carried next) : k = p.key ∧ carried = next := by
  induction h with
  | start initial stored =>
    obtain ⟨-, hframe⟩ := hunmerged [] ((mem_tails _ _).2 (nil_suffix)) _ rfl
    refine ⟨rfl, ?_⟩
    simpa [carriedFrame, initial, Point.key, stored, Except.toOption, eq_comm] using hframe
  | @turn before p q k k' turn _ input out carried next along _ _ output follow turns carries stored
      _ ih =>
    obtain ⟨rfl, -⟩ := ih (hunmerged.of_suffix (suffix_cons _ _))
    obtain ⟨hflat, -⟩ := hunmerged _ ((mem_tails _ _).2 (suffix_cons _ _)) p along.walk
    have hwalk : g.walk (⟨p.node, turn⟩ :: before) = some q :=
      walk_cons.2 ⟨p, along.walk, rfl, follow⟩
    obtain ⟨-, hframe⟩ := hunmerged _ ((mem_tails _ _).2 suffix_rfl) q hwalk
    have hkey : k' = q.key := by
      cases turn with
      | flow n =>
        simp only [FlowGraph.follow, Option.ite_none_right_eq_some, Option.some.injEq] at follow
        obtain ⟨-, rfl⟩ := follow
        rw [show k' = _ from turns, successorKey, Point.key]
        split <;> rfl
      | back =>
        obtain ⟨call, outer, hcalls, -, hcontext⟩ := turns
        cases outer with
        | cons => simp [hcalls] at hflat
        | nil =>
          simp only [FlowGraph.follow, hcalls, Option.ite_none_right_eq_some,
            Option.map_eq_some_iff] at follow
          obtain ⟨-, _, -, rfl⟩ := follow
          cases k' with
          | topLevel => rfl
          | call => simp [FlowGraph.Context] at hcontext
      | caught guard =>
        simp only [FlowGraph.follow, Option.ite_none_right_eq_some, Option.some.injEq] at follow
        obtain ⟨-, rfl⟩ := follow
        exact turns
    subst hkey
    refine ⟨rfl, ?_⟩
    simpa [carriedFrame, along.walk, along.stored, output, carries, stored, Except.toOption,
      eq_comm] using hframe

theorem not_meetsOn_of_unmerged {R : Frame → Frame → Prop} (hunmerged : c.Unmerged g s legs)
    (hR : ∀ f, ¬R f f) : ¬MeetsOn c g s R legs [] := by
  rintro ⟨before, after, q, k, carried, next, rfl, halong, hmeets⟩
  rw [append_nil] at halong
  obtain ⟨-, rfl⟩ := halong.eq_of_unmerged (hunmerged.of_suffix (suffix_append _ _))
  exact hR carried hmeets

end MethodContext

theorem Frame.not_takesForInitialized_self (f : Frame) : ¬f.TakesForInitialized f := by
  rintro ⟨j, v, w, hv, hmarker, hw, href⟩
  cases hv.symm.trans hw
  rw [isUninitialized_of_isReference href] at hmarker
  cases hmarker

/-- A dog that barks after its constructor was called, with a subroutine call before and after. -/
def barkAfterwards : Method where
  name := "barkAfterwards"
  descriptor := "()V"
  access := .staticBit
  maxStack := 1
  maxLocals := 3
  -- new #2, astore_1, jsr 19, aload_1, invokespecial #6, jsr 19, aload_1, invokevirtual #9, return;
  -- astore_2, ret 2
  code := [0xbb, 0x00, 0x02, 0x4c, 0xa8, 0x00, 0x0f, 0x2b, 0xb7, 0x00, 0x06, 0xa8, 0x00, 0x08, 0x2b,
    0xb6, 0x00, 0x09, 0xb1, 0x4d, 0xa9, 0x02]

/-- The way through both calls. -/
def throughCalls : List Leg :=
  [⟨6, .flow 7⟩, ⟨10, .back⟩, ⟨9, .flow 10⟩, ⟨5, .flow 9⟩, ⟨4, .flow 5⟩, ⟨3, .flow 4⟩, ⟨10, .back⟩,
    ⟨9, .flow 10⟩, ⟨2, .flow 9⟩, ⟨1, .flow 2⟩, ⟨0, .flow 1⟩]

/-- On that way nothing is merged and no subroutine allocates. -/
theorem barkAfterwards_path : ∃ prepared, barkAfterwards.prepare kennelClass.pool = .ok prepared ∧
    ∃ g, build prepared.code barkAfterwards.handlers kennelClass.pool true = .ok g ∧
    g.walk throughCalls = some ⟨7, []⟩ ∧
    (g.instruction 7).action = .invoke .ofVirtual ∧
    (∀ s ∈ (verifyTraced kennelTable {} "" kennelClass barkAfterwards).flow,
      MethodContext.Unmerged ⟨kennelTable, kennelClass, barkAfterwards, prepared.type⟩ g s
        throughCalls) ∧
    ∀ leg ∈ throughCalls, (g.instruction leg.node).action = .allocate →
      g.ownerOf leg.node = some 0 := by
  decide +kernel

/-- A dog that barks, though no constructor was called, where the other branch has stored null. -/
def barkAnyway : Method where
  name := "barkAnyway"
  descriptor := "(I)V"
  access := .staticBit
  maxStack := 1
  maxLocals := 2
  -- iload_0, ifeq 9, aconst_null, astore_1, goto 13; new #2, astore_1; aload_1, invokevirtual #9,
  -- return
  code := [0x1a, 0x99, 0x00, 0x08, 0x01, 0x4c, 0xa7, 0x00, 0x07, 0xbb, 0x00, 0x02, 0x4c, 0x2b, 0xb6,
    0x00, 0x09, 0xb1]

/-- The way through the allocation. -/
def towardsBark : List Leg :=
  [⟨7, .flow 8⟩, ⟨6, .flow 7⟩, ⟨5, .flow 6⟩, ⟨1, .flow 5⟩, ⟨0, .flow 1⟩]

/-- On that way the dog gets a number, and it barks. -/
theorem barkAnyway_path : ∃ prepared, barkAnyway.prepare kennelClass.pool = .ok prepared ∧
    ∃ g, build prepared.code barkAnyway.handlers kennelClass.pool true = .ok g ∧
    ∃ e, objectFrame ⟨kennelTable, kennelClass, barkAnyway, prepared.type⟩ g
      towardsBark = .ok e ∧ g.walk towardsBark = some ⟨8, []⟩ ∧
    e.stack.values = [.uninitialized "app/Dog" 2] ∧
    (g.instruction 8).action = .invoke .ofVirtual ∧
    usesInitialized ⟨kennelTable, kennelClass, barkAnyway, prepared.type⟩
      (g.instruction 8) e = false := by
  decide +kernel

/-- The dog that barks after its constructor call is no exception, and the other one is. -/
theorem uninitialized_unused_barks :
    (∃ prepared g e, barkAfterwards.prepare kennelClass.pool = .ok prepared ∧
      FlowGraph.build prepared.code barkAfterwards.handlers kennelClass.pool true = .ok g ∧
      (g.instruction 7).action = .invoke .ofVirtual ∧
      objectFrame ⟨kennelTable, kennelClass, barkAfterwards, prepared.type⟩ g
        throughCalls = .ok e ∧
      usesInitialized ⟨kennelTable, kennelClass, barkAfterwards, prepared.type⟩
        (g.instruction 7) e = true) ∧
    ∃ prepared g s, barkAnyway.prepare kennelClass.pool = .ok prepared ∧
      FlowGraph.build prepared.code barkAnyway.handlers kennelClass.pool true = .ok g ∧
      (verifyTraced kennelTable {} "" kennelClass barkAnyway).flow = some s ∧
      (MethodContext.MeetsOn ⟨kennelTable, kennelClass, barkAnyway, prepared.type⟩ g s
          Frame.TakesForInitialized towardsBark [] ∨
        MethodContext.MeetsOwnMarker ⟨kennelTable, kennelClass, barkAnyway, prepared.type⟩ g s
          towardsBark) := by
  constructor
  · obtain ⟨verdict, hverdict, haccepted⟩ : ∃ verdict,
        verify kennelTable {} "" kennelClass barkAfterwards = .ok verdict ∧
        verdict.status = .accepted := by decide +kernel
    obtain ⟨prepared, hprepared, g, hg, hwalk, haction, hunmerged, htop⟩ := barkAfterwards_path
    rcases uninitialized_unused kennelTable {} "" kennelClass barkAfterwards verdict prepared g
      hprepared hg rfl hverdict haccepted throughCalls ⟨7, []⟩ hwalk with
      ⟨e, he, huses⟩ | ⟨s, hflow, hmeets | hown⟩
    · exact ⟨prepared, g, e, hprepared, hg, haction, he, huses⟩
    · exact absurd hmeets (not_meetsOn_of_unmerged (hunmerged s hflow)
        Frame.not_takesForInitialized_self)
    · obtain ⟨after, turn, before, p, k, carried, input, hlegs, -, hnew, howner, -⟩ := hown
      exact absurd (htop ⟨p.node, turn⟩ (by simp [hlegs]) hnew) howner
  · obtain ⟨verdict, hverdict, haccepted⟩ : ∃ verdict,
        verify kennelTable {} "" kennelClass barkAnyway = .ok verdict ∧
        verdict.status = .accepted := by decide +kernel
    obtain ⟨prepared, hprepared, g, hg, e, he, hwalk, -, -, huses⟩ := barkAnyway_path
    rcases uninitialized_unused kennelTable {} "" kennelClass barkAnyway verdict prepared g
      hprepared hg rfl hverdict haccepted towardsBark ⟨8, []⟩ hwalk with
      ⟨e', he', huses'⟩ | ⟨s, hflow, hmisled⟩
    · cases he.symm.trans he'
      rw [huses] at huses'
      cases huses'
    · exact ⟨prepared, g, s, hprepared, hg, hflow, hmisled⟩

/-- The classes are well-formed and the method is accepted, although on this path it invokes a
method on the dog that the third leg allocates, with no call of a constructor. -/
theorem uninitialized_used :
    kennelTable.WellFormed ∧
      (verify kennelTable {} "" kennelClass barkAnyway).toOption.map Verdict.status =
        some .accepted ∧
      ∃ prepared g e, barkAnyway.prepare kennelClass.pool = .ok prepared ∧
        FlowGraph.build prepared.code barkAnyway.handlers kennelClass.pool true = .ok g ∧
        g.walk towardsBark = some ⟨8, []⟩ ∧
        objectFrame ⟨kennelTable, kennelClass, barkAnyway, prepared.type⟩ g
          towardsBark = .ok e ∧
        e.stack.values = [.uninitialized "app/Dog" 2] ∧
        (g.instruction 8).action = .invoke .ofVirtual ∧
        usesInitialized ⟨kennelTable, kennelClass, barkAnyway, prepared.type⟩
          (g.instruction 8) e = false := by
  obtain ⟨prepared, hprepared, g, hg, e, he, hwalk, hused⟩ := barkAnyway_path
  exact ⟨by decide +kernel, by decide +kernel, prepared, g, e, hprepared, hg, hwalk, he, hused⟩

end Bytecode
