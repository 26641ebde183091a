import Bytecode.Proofs.CodeLayout
import Bytecode.Proofs.FlowSteps
import Bytecode.Proofs.Running

/-!
What the frames that data flow stores have in common.

* `Initial`: what the initial frame holds;
* `FrameInvariant`: a property that the initial frame has and that merges, instructions and handlers
  keep;
* `FrameInvariant.of_reaches`: every frame of a run has such a property.
-/
namespace Bytecode.MethodContext

open FrameTable List

variable {c : MethodContext} {g : FlowGraph} {tasks : List Task} {queue : List WorkItem}
  {s s' : FlowState} {task : Task}

/-- The frame on exit that a task carries. -/
def Task.given : Task → Frame
  | .flow _ frame _ => frame
  | .handle _ _ _ out => out

/-- The handler that a task enters, if it enters one, is in the graph. -/
def Task.Guarded (g : FlowGraph) : Task → Prop
  | .flow .. => True
  | .handle guard _ _ _ => guard ∈ g.guards

/-! ### The initial frame -/

variable {f out : Frame} {chain : CallChain} {item : WorkItem} {successors : List Nat}

theorem placeArguments_ok {args : List FieldType} {slot : Nat}
    (h : placeArguments f slot args = .ok out) :
    out.stack = f.stack ∧ out.thisUninitialized = f.thisUninitialized ∧
      ∀ v ∈ out.locals, v ∈ f.locals ∨ v = .unknown ∨ ∃ arg ∈ args, v = .ofFieldType arg := by
  induction args generalizing f slot with
  | nil =>
    cases h
    exact ⟨rfl, rfl, fun v hv => .inl hv⟩
  | cons arg args ih =>
    obtain ⟨placed, hplace, h⟩ := bind_eq_ok.1 h
    obtain ⟨-, -, rfl⟩ := Frame.place_eq_ok.1 hplace
    obtain ⟨hstack, hflag, hlocals⟩ := ih h
    refine ⟨hstack, hflag, fun v hv => ?_⟩
    rcases hlocals v hv with hv | hv | ⟨other, hother, rfl⟩
    · rcases Frame.mem_storedLocals hv with hv | rfl | hv
      · exact .inl hv
      · exact .inr (.inr ⟨arg, mem_cons_self, rfl⟩)
      · exact .inr (.inl hv)
    · exact .inr (.inl hv)
    · exact .inr (.inr ⟨other, mem_cons_of_mem _ hother, rfl⟩)

/-- What a method starts with: an empty stack, and the receiver and the arguments in local
variables. -/
structure Initial (c : MethodContext) (f : Frame) : Prop where
  values : f.stack.values = []
  flag : f.thisUninitialized = c.startsUninitialized
  locals : ∀ v ∈ f.locals, v = .unknown ∨
    (v = if c.startsUninitialized then .uninitializedThis c.owner.name
      else .reference c.owner.name) ∨
    ∃ arg ∈ c.type.args, v = .ofFieldType arg

theorem initial_of_initialFrame (h : c.initialFrame = .ok f) : Initial c f := by
  unfold initialFrame at h
  simp only at h
  split at h
  · obtain ⟨hstack, hflag, hlocals⟩ := placeArguments_ok h
    refine ⟨hstack ▸ rfl, hflag, fun v hv => ?_⟩
    rcases hlocals v hv with hv | hv | harg
    · exact .inl (Array.mem_replicate.1 hv).2
    · exact .inl hv
    · exact .inr (.inr harg)
  · obtain ⟨received, hset, h⟩ := bind_eq_ok.1 h
    obtain ⟨-, rfl⟩ := Frame.setLocal_eq_ok.1 hset
    obtain ⟨hstack, hflag, hlocals⟩ := placeArguments_ok h
    refine ⟨hstack ▸ rfl, hflag, fun v hv => ?_⟩
    rcases hlocals v hv with hv | hv | harg
    · rcases Array.mem_or_eq_of_mem_setIfInBounds hv with hv | rfl
      · exact .inl (Array.mem_replicate.1 hv).2
      · exact .inr (.inl rfl)
    · exact .inl hv
    · exact .inr (.inr harg)

theorem values_initialFrame (h : c.initialFrame = .ok f) : f.stack.values = [] :=
  (initial_of_initialFrame h).values

/-! ### Where a visit goes -/

/-- The context of the static successors of a node. -/
def successorKey (g : FlowGraph) (u : Nat) (k : CallKey) : CallKey :=
  if (g.instruction u).op.isJsr then .call u else k

/-- Where a visit goes on: the static successors, or what follows the call that a return ends. -/
structure Leads (g : FlowGraph) (u : Nat) (k k' : CallKey) (successors : List Nat) : Prop where
  static : (g.instruction u).op.isRet = false →
    successors = g.successorsOf u ∧ k' = successorKey g u k
  back : (g.instruction u).op.isRet = true →
    ∃ call next, k = .call call ∧ g.next call = .ok next ∧ successors = [next]

theorem returnTarget_ok {n t : Nat} (h : returnTarget g n chain out = .ok t) :
    ∃ call, chain.openCall? = some call ∧ g.next call = .ok t := by
  unfold returnTarget at h
  obtain ⟨found, -, h⟩ := bind_eq_ok.1 h
  split at h
  · split at h
    · split at h
      · next call hcall =>
        obtain ⟨expected, hnext, h⟩ := bind_eq_ok.1 h
        simp only [ite_eq_ok, bind_eq_ok, pure_eq_ok, reduceCtorEq, false_and, exists_false,
          imp_false, Decidable.not_not] at h
        obtain ⟨rfl, h⟩ := h
        obtain ⟨targets, -, heq, hmem⟩ := h rfl
        exact ⟨call, hcall, heq hmem ▸ hnext⟩
      · cases h
    · cases h
  · cases h

theorem leaving_eq_ok : leaving g item s = .ok (out, chain, successors) ↔
    s.outputs.get? item.node item.chain.key = some out ∧
      item.chain.extend item.node (g.instruction item.node).op.isJsr
        (g.instruction item.node).op.isRet = .ok chain ∧
      flowSuccessors g item.node item.chain out = .ok successors := by
  unfold leaving
  simp only
  split
  · next out' hout =>
    simp only [bind_eq_ok, pure_eq_ok, Prod.mk.injEq, hout, Option.some.injEq]
    constructor
    · rintro ⟨chain', hchain, successors', hsucc, rfl, rfl, rfl⟩
      exact ⟨rfl, hchain, hsucc⟩
    · rintro ⟨rfl, hchain, hsucc⟩
      exact ⟨chain, hchain, successors, hsucc, rfl, rfl, rfl⟩
  · next hout =>
    constructor
    · intro h
      cases h
    · intro h
      exact absurd h.1 (hout out)

theorem leaving_ok (h : leaving g item s = .ok (out, chain, successors)) :
    s.outputs.get? item.node item.chain.key = some out ∧
      Leads g item.node item.chain.key chain.key successors := by
  obtain ⟨hout, hchain, hsucc⟩ := leaving_eq_ok.1 h
  refine ⟨hout, fun hret => ?_, fun hret => ?_⟩
  · simp only [flowSuccessors, hret, Bool.false_eq_true, if_false, Except.ok.injEq] at hsucc
    refine ⟨hsucc.symm, ?_⟩
    rw [hret] at hchain
    unfold successorKey
    cases hjsr : (g.instruction item.node).op.isJsr with
    | true =>
      simp only [CallChain.extend, hjsr, if_true, Except.ok.injEq] at hchain
      rw [← hchain]
      rfl
    | false =>
      simp only [CallChain.extend, hjsr, Bool.false_eq_true, if_false, Except.ok.injEq] at hchain
      rw [← hchain]
      rfl
  · simp only [flowSuccessors, hret, if_true, bind_eq_ok, pure_eq_ok] at hsucc
    obtain ⟨next, hnext, rfl⟩ := hsucc
    obtain ⟨call, hcall, hnext⟩ := returnTarget_ok hnext
    exact ⟨call, next, by simp [CallChain.key, hcall], hnext, rfl⟩

/-! ### Checked and run -/

/-- The frames on entry have been checked and run, which gave those on exit; and the executions due
are of nodes of the graph. -/
structure Stored (c : MethodContext) (g : FlowGraph) (tasks : List Task) (s : FlowState) :
    Prop where
  inputRows : s.inputs.rows.size = g.size
  outputRows : s.outputs.rows.size = g.size
  executed : ∀ u k input, s.inputs.get? u k = some input →
    c.check (g.instruction u) input = .ok () ∧
      ∃ out, c.run (g.instruction u) input = .ok out ∧ s.outputs.get? u k = some out
  entered : ∀ u k out, s.outputs.get? u k = some out → ∃ input, s.inputs.get? u k = some input
  inRange : ∀ task ∈ tasks, task.node < g.size
  guarded : ∀ task ∈ tasks, task.Guarded g

namespace Stored

theorem start {f : Frame} (hsize : 0 < g.size) :
    Stored c g [.flow 0 f .empty] (startState g) where
  inputRows := by simp [startState, empty]
  outputRows := by simp [startState, empty]
  executed := by simp [startState]
  entered := by simp [startState]
  inRange := by simpa [Task.node] using hsize
  guarded := by simp [Task.Guarded]

theorem get?_inputs {new : Frame} (h : Stored c g (task :: tasks) s)
    (hinputs : s'.inputs = s.inputs.insert task.node task.chain.key new) (u : Nat) (k : CallKey) :
    s'.inputs.get? u k =
      if task.node = u ∧ task.chain.key = k then some new else s.inputs.get? u k := by
  rw [hinputs, get?_insert]
  rw [h.inputRows]
  exact h.inRange task mem_cons_self

theorem get?_outputs (h : Stored c g (task :: tasks) s)
    (houtputs : s'.outputs = s.outputs.insert task.node task.chain.key out) (u : Nat)
    (k : CallKey) : s'.outputs.get? u k =
      if task.node = u ∧ task.chain.key = k then some out else s.outputs.get? u k := by
  rw [houtputs, get?_insert]
  rw [h.outputRows]
  exact h.inRange task mem_cons_self

theorem visit {code : Array Instruction} {table : List Handler} {pool : ConstantPool}
    (hg : g.toCodeEdges.Built code table pool) {item : WorkItem} {out : Frame} {chain : CallChain}
    {successors : List Nat} (h : Stored c g [] s)
    (hl : leaving g item s = .ok (out, chain, successors)) :
    Stored c g (dueTasks g item out chain successors) s where
  inputRows := h.inputRows
  outputRows := h.outputRows
  executed := h.executed
  entered := h.entered
  inRange := by
    intro task htask
    rcases mem_append.1 htask with htask | htask
    · obtain ⟨v, hv, rfl⟩ := mem_map.1 htask
      obtain ⟨-, hleads⟩ := leaving_ok hl
      cases hret : (g.instruction item.node).op.isRet with
      | false =>
        rw [(hleads.static hret).1] at hv
        exact hg.successor_lt hv
      | true =>
        obtain ⟨call, next, -, hnext, rfl⟩ := hleads.back hret
        rw [mem_singleton.1 hv]
        exact (hg.next_sound hnext).1
    · obtain ⟨guard, hguard, rfl⟩ := mem_map.1 htask
      exact hg.entry_lt (CodeEdges.mem_guards hguard)
  guarded := by
    intro task htask
    rcases mem_append.1 htask with htask | htask
    · obtain ⟨v, -, rfl⟩ := mem_map.1 htask
      exact trivial
    · obtain ⟨guard, hguard, rfl⟩ := mem_map.1 htask
      exact CodeEdges.mem_guards hguard

theorem perform {f : Frame} {changed : Bool} (h : Stored c g (task :: tasks) s)
    (hexec : c.execute g task.node f task.chain s = (s', .ok changed)) : Stored c g tasks s' := by
  have hrange : ∀ t ∈ tasks, t.node < g.size := fun t ht =>
    h.inRange t (mem_cons_of_mem task ht)
  have hguarded : ∀ t ∈ tasks, t.Guarded g := fun t ht =>
    h.guarded t (mem_cons_of_mem task ht)
  have hstep := executed_execute hexec
  cases hstep with
  | absorbed _ _ inputs outputs =>
    refine ⟨inputs ▸ h.inputRows, outputs ▸ h.outputRows, ?_, ?_, hrange, hguarded⟩
    · rw [inputs, outputs]
      exact h.executed
    · rw [inputs, outputs]
      exact h.entered
  | @ran new out _ check run inputs outputs =>
    refine ⟨?_, ?_, fun u k input hinput => ?_, fun u k out' hout' => ?_, hrange, hguarded⟩
    · rw [inputs, rows_size_insert, h.inputRows]
    · rw [outputs, rows_size_insert, h.outputRows]
    · rw [h.get?_inputs inputs] at hinput
      rw [h.get?_outputs outputs]
      split at hinput
      · next he =>
        obtain ⟨rfl, rfl⟩ := he
        cases hinput
        exact ⟨check, out, run, by simp⟩
      · next he =>
        rw [if_neg he]
        exact h.executed u k input hinput
    · rw [h.get?_outputs outputs] at hout'
      rw [h.get?_inputs inputs]
      split
      · exact ⟨new, rfl⟩
      · next he =>
        rw [if_neg he] at hout'
        exact h.entered u k out' hout'

/-- The frames are so at each moment of data flow. -/
theorem of_reaches {code : Array Instruction} {table : List Handler} {pool : ConstantPool}
    (hg : g.toCodeEdges.Built code table pool) (h : Reaches c g tasks queue s) :
    Stored c g tasks s := by
  induction h with
  | start => exact .start hg.nonempty
  | visit _ hl ih => exact ih.visit hg hl
  | perform _ _ hexec ih => exact ih.perform hexec

end Stored

/-! ### Invariants of frames -/

/-- A property of the initial frame that merges, the instructions of a graph and its handlers
keep. -/
structure FrameInvariant (c : MethodContext) (g : FlowGraph) (P : Frame → Prop) : Prop where
  initial : ∀ {f}, c.initialFrame = .ok f → P f
  merge : ∀ {f f' merged changed}, P f → P f' →
    Frame.merge c.hierarchy f f' = (merged, .ok changed) → P merged
  run : ∀ {n f out}, n < g.size → P f → c.check (g.instruction n) f = .ok () →
    c.run (g.instruction n) f = .ok out → P out
  handle : ∀ {guard out entry f}, guard ∈ g.guards → P out →
    handlerFrame guard out entry = .ok f → P f

namespace FrameInvariant

variable {P : Frame → Prop}

theorem of_frame (hP : FrameInvariant c g P) (hguarded : task.Guarded g) (hgiven : P task.given)
    (hf : task.frame g s = .ok f) : P f := by
  cases task with
  | flow =>
    cases hf
    exact hgiven
  | handle guard source key out =>
    simp only [Task.frame, ite_eq_ok, reduceCtorEq, imp_false, known_eq_ok] at hf
    exact hP.handle hguarded hgiven (hf.2 hf.1)

theorem of_arrives (hP : FrameInvariant c g P) {stored : Option Frame} {new : Frame}
    (hstored : ∀ old, stored = some old → P old) (hf : P f) (h : Arrives c.hierarchy stored f new) :
    P new := by
  cases h with
  | first => exact hf
  | grown hold hmerge => exact hP.merge (hstored _ hold) hf hmerge

/-- Every frame that is stored or carried has the property. -/
theorem of_reaches {code : Array Instruction} {table : List Handler} {pool : ConstantPool}
    (hP : FrameInvariant c g P) (hg : g.toCodeEdges.Built code table pool)
    (h : Reaches c g tasks queue s) : (∀ u k f, s.inputs.get? u k = some f → P f) ∧
      (∀ u k f, s.outputs.get? u k = some f → P f) ∧ ∀ task ∈ tasks, P task.given := by
  induction h with
  | start hf =>
    refine ⟨by simp [startState], by simp [startState], fun task htask => ?_⟩
    rw [mem_singleton.1 htask]
    exact hP.initial hf
  | visit _ hl ih =>
    obtain ⟨hin, hout, -⟩ := ih
    have hleft := hout _ _ _ (leaving_ok hl).1
    refine ⟨hin, hout, fun task htask => ?_⟩
    rcases mem_append.1 htask with htask | htask
    · obtain ⟨v, -, rfl⟩ := mem_map.1 htask
      exact hleft
    · obtain ⟨guard, -, rfl⟩ := mem_map.1 htask
      exact hleft
  | @perform task tasks queue s s' f changed hreaches hf hexec ih =>
    obtain ⟨hin, hout, htasks⟩ := ih
    have hrest : ∀ t ∈ tasks, P t.given := fun t ht => htasks t (mem_cons_of_mem task ht)
    have hstored := Stored.of_reaches hg hreaches
    have hstep := executed_execute hexec
    cases hstep with
    | absorbed _ _ inputs outputs => exact ⟨inputs ▸ hin, outputs ▸ hout, hrest⟩
    | @ran new out arrives check run inputs outputs =>
      have hnew : P new := hP.of_arrives (fun old => hin _ _ old)
        (hP.of_frame (hstored.guarded task mem_cons_self) (htasks task mem_cons_self) hf)
        arrives
      have hout' : P out := hP.run (hstored.inRange task mem_cons_self) hnew check run
      refine ⟨fun u k x hx => ?_, fun u k x hx => ?_, hrest⟩
      · rw [hstored.get?_inputs inputs] at hx
        split at hx
        · cases hx
          exact hnew
        · exact hin u k x hx
      · rw [hstored.get?_outputs outputs] at hx
        split at hx
        · cases hx
          exact hout'
        · exact hout u k x hx

end FrameInvariant

end Bytecode.MethodContext
