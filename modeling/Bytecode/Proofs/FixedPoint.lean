import Bytecode.Proofs.ClassOrder
import Bytecode.Proofs.Markers

/-!
Where data flow ends, nothing is left to carry on: the frames are a fixed point.

* `MethodContext.FixedPoint`: what this means for each node and context;
* `Progress`: the invariant of a run. Each frame on exit is pending in the queue, or its successors
  and handlers are due or have been given it;
* `fixedPoint_of_solve`: the frames that `solve` ends with are a fixed point.
-/
namespace Bytecode

open Bytecode.Frame List

/-! ### The receiver of a constructor -/

/-- Wherever the marker of the receiver is, it is that of a class `owner`, and the frame knows that
the receiver is uninitialized. -/
def Frame.ThisMarked (owner : String) (f : Frame) : Prop :=
  ∀ v, v ∈ f.stack.values ∨ v ∈ f.locals → v.isUninitializedThis = true →
    v = .uninitializedThis owner ∧ f.thisUninitialized = true

namespace Frame.ThisMarked

variable {h : Hierarchy} {owner : String} {f g : Frame} {ins : Instruction}

theorem isUninitialized {v : ValueType} (hv : v.isUninitializedThis = true) :
    v.isUninitialized = true := by
  cases v <;> first | rfl | cases hv

theorem of_covers (hf : f.ThisMarked owner) (hgf : g.Covers h f) : g.ThisMarked owner := by
  intro v hmem hv
  have hold : f.Has v := Has.of_covers hgf (isUninitialized hv) hmem
  obtain ⟨rfl, hflag⟩ := hf v hold hv
  exact ⟨rfl, hgf.thisUninitialized hflag⟩

theorem of_effect (hf : f.ThisMarked owner) (he : Effect c ins f g) : g.ThisMarked owner := by
  intro v hmem hv
  have hold : f.Has v := by
    rcases Has.of_effect he (isUninitialized hv) hmem with hold | ⟨-, name, rfl⟩
    · exact hold
    · cases hv
  obtain ⟨rfl, hflag⟩ := hf v hold hv
  refine ⟨rfl, ?_⟩
  cases he with
  | values | call | store => exact hflag
  | @construct _ _ _ marker vs _ _ _ receiver source =>
    simp only [withValues_values, withValues_locals, withValues_thisUninitialized] at hmem ⊢
    have hkept : (f.initializeObject marker).Has (.uninitializedThis owner) := by
      refine hmem.imp_left fun hmem => ?_
      rcases source _ hmem with hmem | hmade
      · exact hmem
      · cases hmade.isPlain
    -- Were the marker that of the receiver, it would be the one just initialized.
    cases hm : marker.isUninitializedThis with
    | false => simp [hflag]
    | true =>
      rcases hkept.of_initializeObject with hinitialized | ⟨-, hne⟩
      · cases hinitialized
      exact absurd (hf marker (.inl (List.mem_of_getElem? receiver)) hm).1.symm hne

theorem flag_of_effect (he : Effect c ins f g) : g.thisUninitialized = f.thisUninitialized ∨
    (g.thisUninitialized = false ∧ ∃ v ∈ f.stack.values, v.isUninitializedThis = true) := by
  cases he with
  | values | call | store => exact .inl rfl
  | @construct _ _ _ marker _ _ _ _ receiver =>
    cases hm : marker.isUninitializedThis with
    | false => exact .inl (by simp)
    | true => exact .inr ⟨by simp, marker, List.mem_of_getElem? receiver, hm⟩

/-- When an instruction is run again on a frame that covers the last one, and the frame on exit does
not change, then neither does what its handlers are told about the receiver. -/
theorem flag_eq_of_same {f' g' : Frame} (hf : f.ThisMarked owner) (hf' : f'.ThisMarked owner)
    (he' : Effect c ins f' g') (hcovers : f'.Covers h f)
    (hsame : g.thisUninitialized = g'.thisUninitialized) :
    (g'.thisUninitialized || f'.thisUninitialized) =
      (g.thisUninitialized || f.thisUninitialized) := by
  rcases flag_of_effect he' with hflag | ⟨-, v, hmem, hv⟩
  · have hmono := hcovers.thisUninitialized
    rw [hsame, hflag]
    cases hf₁ : f.thisUninitialized <;> cases hf₂ : f'.thisUninitialized <;> simp_all
  · have hold : f.Has v := Has.of_covers hcovers (isUninitialized hv) (.inl hmem)
    rw [(hf v hold hv).2, (hf' v (.inl hmem) hv).2]
    simp

end Frame.ThisMarked

namespace MethodContext

variable {c : MethodContext} {g : FlowGraph}

variable {f f' : Frame} {s : FlowState} {task : Task}

/-- Where the receiver is uninitialized, the frames know it. -/
theorem thisMarked_invariant (hc : c.hierarchy.Coherent) :
    FrameInvariant c g (Frame.ThisMarked c.owner.name) where
  initial hf v hhas hv := has_initialFrame hf (Frame.ThisMarked.isUninitialized hv) hhas
  merge hf _ hmerge := hf.of_covers (covers_merge hc hmerge).1
  run _ hf _ hrun := hf.of_effect (effect_run hrun)
  handle := by
    intro guard out entry f _ hout hf
    simp only [handlerFrame, bind_eq_ok, pure_eq_ok, Stack.push_eq_ok] at hf
    obtain ⟨stack, ⟨-, -, rfl⟩, rfl⟩ := hf
    rintro v (hmem | hmem) hv
    · rw [mem_singleton.1 hmem] at hv
      cases hv
    · obtain ⟨rfl, hflag⟩ := hout v (.inr hmem) hv
      exact ⟨rfl, by simp [hflag]⟩

/-! ### The fixed point -/

/-- The frame with which a handler is entered from a guarded instruction, whose frames on entry and
on exit are given. -/
def caughtFrame (guard : Guard) (input out : Frame) : Frame where
  stack := { values := [guard.caughtType], max := out.stack.max }
  locals := out.locals
  thisUninitialized := out.thisUninitialized || input.thisUninitialized

/-- The stored frames are a fixed point of data flow. -/
structure FixedPoint (c : MethodContext) (g : FlowGraph) (s : FlowState) : Prop where
  /-- The frame on entry of the method is covered. -/
  entry : ∃ f first, c.initialFrame = .ok f ∧ s.inputs.get? 0 .topLevel = some first ∧
    first.Covers c.hierarchy f
  /-- Each instruction accepts the frame on its entry and makes of it the frame on its exit. -/
  executed : ∀ u k input, s.inputs.get? u k = some input →
    c.check (g.instruction u) input = .ok () ∧
      ∃ out, c.run (g.instruction u) input = .ok out ∧ s.outputs.get? u k = some out
  /-- There is no other frame on exit. -/
  entered : ∀ u k out, s.outputs.get? u k = some out → ∃ input, s.inputs.get? u k = some input
  /-- A frame on exit is covered at each static successor. -/
  successor : ∀ u k out, s.outputs.get? u k = some out → (g.instruction u).op.isRet = false →
    ∀ v ∈ g.successorsOf u, ∃ f, s.inputs.get? v (successorKey g u k) = some f ∧
      f.Covers c.hierarchy out
  /-- A return from a subroutine is in the context of a call, and its frame on exit is covered at
  the instruction after the call. -/
  back : ∀ u k out, s.outputs.get? u k = some out → (g.instruction u).op.isRet = true →
    ∃ call next k' f, k = .call call ∧ g.next call = .ok next ∧
      s.inputs.get? next k' = some f ∧ f.Covers c.hierarchy out
  /-- Each handler that guards an instruction covers what may be caught there. -/
  caught : ∀ u k input out, s.inputs.get? u k = some input → s.outputs.get? u k = some out →
    ∀ guard ∈ g.guardsOf u, ∃ f, s.inputs.get? guard.entry .topLevel = some f ∧
      f.Covers c.hierarchy (caughtFrame guard input out)

/-! ### The invariant of a run -/

/-- The frame that a task asks to be covered. -/
def Task.demand (s : FlowState) : Task → Frame
  | .flow _ frame _ => frame
  | .handle guard source key out =>
    { stack := { values := [guard.caughtType], max := out.stack.max }
      locals := out.locals
      thisUninitialized := out.thisUninitialized ||
        (s.inputs.get? source key).any (·.thisUninitialized) }

/-- What a task asks has been done. -/
def Met (c : MethodContext) (s : FlowState) (task : Task) : Prop :=
  ∃ f, s.inputs.get? task.node task.chain.key = some f ∧ f.Covers c.hierarchy (task.demand s)

theorem Task.demand_of_frame (h : task.frame g s = .ok f) : task.demand s = f := by
  cases task with
  | flow =>
    cases h
    rfl
  | handle guard source key out =>
    simp only [Task.frame, ite_eq_ok, reduceCtorEq, imp_false, known_eq_ok, handlerFrame,
      bind_eq_ok, pure_eq_ok, Stack.push_eq_ok] at h
    obtain ⟨hroom, h⟩ := h
    obtain ⟨stack, ⟨-, -, rfl⟩, rfl⟩ := h hroom
    rfl

/-- The invariant of a run that starts with the frame `initial`. -/
structure Progress (c : MethodContext) (g : FlowGraph) (initial : Frame) (tasks : List Task)
    (queue : List WorkItem) (s : FlowState) : Prop where
  entry : .flow 0 initial .empty ∈ tasks ∨
    ∃ first, s.inputs.get? 0 .topLevel = some first ∧ first.Covers c.hierarchy initial
  /-- A frame on exit is pending, or its successors and handlers are due or have been given it. -/
  settled : ∀ u k out, s.outputs.get? u k = some out →
    (∃ item ∈ queue, item.node = u ∧ item.chain.key = k) ∨
    ∃ item out₀ chain successors, item.node = u ∧ item.chain.key = k ∧ out₀.same out = true ∧
      Leads g u k chain.key successors ∧
      ∀ task ∈ dueTasks g item out₀ chain successors, task ∈ tasks ∨ Met c s task

namespace Progress

variable {initial : Frame} {tasks : List Task} {queue : List WorkItem} {s : FlowState}

variable {f out new : Frame} {s' : FlowState} {task : Task}

theorem start {f : Frame} : Progress c g f [.flow 0 f .empty] [] (startState g) where
  entry := .inl mem_cons_self
  settled := by simp [startState]

theorem visit {item : WorkItem} {out : Frame} {chain : CallChain} {successors : List Nat}
    (h : Progress c g initial [] (item :: queue) s)
    (hl : leaving g item s = .ok (out, chain, successors)) :
    Progress c g initial (dueTasks g item out chain successors) queue s := by
  obtain ⟨hout, hleads⟩ := leaving_ok hl
  refine ⟨h.entry.imp_left (by simp), fun u k out' hout' => ?_⟩
  rcases h.settled u k out' hout' with ⟨item', hitem', rfl, rfl⟩ | hrest
  · rcases mem_cons.1 hitem' with rfl | hitem'
    · -- The node that is visited: its tasks are all due now.
      cases hout.symm.trans hout'
      exact .inr ⟨_, out, chain, successors, rfl, rfl, same_iff.2 ⟨rfl, rfl, rfl⟩,
        hleads, fun task htask => .inl htask⟩
    · exact .inl ⟨item', hitem', rfl, rfl⟩
  · obtain ⟨item', out₀, chain', succ', hn, hk, hsame, hl', htasks⟩ := hrest
    exact .inr ⟨item', out₀, chain', succ', hn, hk, hsame, hl', fun task htask =>
      .inr ((htasks task htask).resolve_left (by simp))⟩

theorem demand_eq {item : WorkItem} {chain : CallChain} {successors : List Nat}
    (htask : task ∈ dueTasks g item out chain successors) (hflag : (out.thisUninitialized ||
        (s'.inputs.get? item.node item.chain.key).any (·.thisUninitialized)) =
      (out.thisUninitialized ||
        (s.inputs.get? item.node item.chain.key).any (·.thisUninitialized))) :
    task.demand s' = task.demand s := by
  rcases mem_append.1 htask with htask | htask
  · obtain ⟨v, -, rfl⟩ := mem_map.1 htask
    rfl
  · obtain ⟨guard, -, rfl⟩ := mem_map.1 htask
    simp only [Task.demand, hflag]

/-- The stored frames only grow. -/
def Grows (h : Hierarchy) (s s' : FlowState) : Prop :=
  ∀ u k x, s.inputs.get? u k = some x → ∃ y, s'.inputs.get? u k = some y ∧ y.Covers h x

/-- After a task is done it is no longer due, and tasks stay done while the stored frames grow and
they ask for the same. -/
theorem due_or_met {due : List Task} (hgrows : Grows c.hierarchy s s')
    (hdemand : ∀ t ∈ due, t.demand s' = t.demand s)
    (hdone : ∃ y, s'.inputs.get? task.node task.chain.key = some y ∧
      y.Covers c.hierarchy (task.demand s)) (hdue : ∀ t ∈ due, t ∈ task :: tasks ∨ Met c s t) :
    ∀ t ∈ due, t ∈ tasks ∨ Met c s' t := by
  intro t ht
  rcases hdue t ht with hmem | ⟨x, hx, hcovers⟩
  · rcases mem_cons.1 hmem with rfl | hmem
    · obtain ⟨y, hy, hcovers⟩ := hdone
      exact .inr ⟨y, hy, hdemand t ht ▸ hcovers⟩
    · exact .inl hmem
  · obtain ⟨y, hy, hcovers'⟩ := hgrows _ _ x hx
    exact .inr ⟨y, hy, hdemand t ht ▸ hcovers.trans hcovers'⟩

theorem entry_of_grows (hgrows : Grows c.hierarchy s s')
    (hdone : ∃ y, s'.inputs.get? task.node task.chain.key = some y ∧
      y.Covers c.hierarchy (task.demand s)) (h : .flow 0 initial .empty ∈ task :: tasks ∨
      ∃ first, s.inputs.get? 0 .topLevel = some first ∧ first.Covers c.hierarchy initial) :
    .flow 0 initial .empty ∈ tasks ∨
      ∃ first, s'.inputs.get? 0 .topLevel = some first ∧ first.Covers c.hierarchy initial := by
  rcases h with hmem | ⟨x, hx, hcovers⟩
  · rcases mem_cons.1 hmem with rfl | hmem
    · exact .inr hdone
    · exact .inl hmem
  · obtain ⟨y, hy, hcovers'⟩ := hgrows _ _ x hx
    exact .inr ⟨y, hy, hcovers.trans hcovers'⟩

theorem perform_absorbed {old : Frame} (hc : c.hierarchy.Coherent)
    (h : Progress c g initial (task :: tasks) queue s) (hf : task.frame g s = .ok f)
    (hstored : s.inputs.get? task.node task.chain.key = some old)
    (hmerge : merge c.hierarchy old f = (old, .ok false))
    (hinputs : s'.inputs = s.inputs) (houtputs : s'.outputs = s.outputs) :
    Progress c g initial tasks queue s' := by
  have hdemand : ∀ t : Task, t.demand s' = t.demand s := by
    intro t
    cases t <;> simp [Task.demand, hinputs]
  have hgrows : Grows c.hierarchy s s' := fun u k x hx => ⟨x, hinputs ▸ hx, .refl x⟩
  have hdone : ∃ y, s'.inputs.get? task.node task.chain.key = some y ∧
      y.Covers c.hierarchy (task.demand s) := by
    refine ⟨old, hinputs ▸ hstored, ?_⟩
    rw [Task.demand_of_frame hf]
    exact (covers_merge hc hmerge).2
  refine ⟨entry_of_grows hgrows hdone h.entry, fun u k out hout => ?_⟩
  rw [houtputs] at hout
  rcases h.settled u k out hout with hitem | ⟨item, out₀, chain, succ, hn, hk, hs, hl, htasks⟩
  · exact .inl hitem
  · exact .inr ⟨item, out₀, chain, succ, hn, hk, hs, hl,
      due_or_met hgrows (fun t _ => hdemand t) hdone htasks⟩

theorem arrives_covers {stored : Option Frame} (hc : c.hierarchy.Coherent)
    (h : Arrives c.hierarchy stored f new) :
    new.Covers c.hierarchy f ∧ ∀ old, stored = some old → new.Covers c.hierarchy old := by
  cases h with
  | first hnone => exact ⟨.refl _, by simp [hnone]⟩
  | grown hold hmerge =>
    obtain ⟨hold', hf⟩ := covers_merge hc hmerge
    refine ⟨hf, fun x hx => ?_⟩
    cases hold.symm.trans hx
    exact hold'

theorem perform_ran (hc : c.hierarchy.Coherent) (hstored : Stored c g (task :: tasks) s)
    (hmarked : ∀ u k input, s.inputs.get? u k = some input → input.ThisMarked c.owner.name)
    (h : Progress c g initial (task :: tasks) queue s) (hf : task.frame g s = .ok f)
    (hthis : f.ThisMarked c.owner.name)
    (harrives : Arrives c.hierarchy (s.inputs.get? task.node task.chain.key) f new)
    (hrun : c.run (g.instruction task.node) new = .ok out)
    (hinputs : s'.inputs = s.inputs.insert task.node task.chain.key new)
    (houtputs : s'.outputs = s.outputs.insert task.node task.chain.key out) :
    Progress c g initial tasks (queue ++ queued task
      (!(s.outputs.get? task.node task.chain.key).any (·.same out))) s' := by
  have hget := hstored.get?_inputs hinputs
  obtain ⟨hnew, hold⟩ := arrives_covers hc harrives
  have hgrows : Grows c.hierarchy s s' := by
    intro u k x hx
    rw [hget]
    split
    · next he =>
      obtain ⟨rfl, rfl⟩ := he
      exact ⟨new, rfl, hold x hx⟩
    · exact ⟨x, hx, .refl x⟩
  have hdone : ∃ y, s'.inputs.get? task.node task.chain.key = some y ∧
      y.Covers c.hierarchy (task.demand s) :=
    ⟨new, by simp [hget], Task.demand_of_frame hf ▸ hnew⟩
  refine ⟨entry_of_grows hgrows hdone h.entry, fun u k out' hout' => ?_⟩
  rw [hstored.get?_outputs houtputs] at hout'
  split at hout'
  · next he =>
    obtain ⟨rfl, rfl⟩ := he
    cases hout'
    cases hany : (s.outputs.get? task.node task.chain.key).any (·.same out) with
    | false =>
      exact .inl ⟨⟨task.node, task.chain⟩, mem_append_right _ (by simp [queued]), rfl, rfl⟩
    | true =>
      obtain ⟨last, hlast, hsame⟩ := (Option.any_eq_true _ _).1 hany
      rcases h.settled _ _ last hlast with ⟨item, hitem, hn, hk⟩ |
        ⟨item, out₀, chain, succ, hn, hk, hs, hl, htasks⟩
      · exact .inl ⟨item, mem_append_left _ hitem, hn, hk⟩
      · -- The frame on exit is what it was, so its tasks still ask for the same.
        obtain ⟨hs₁, hs₂, hs₃⟩ := same_iff.1 hs
        obtain ⟨hl₁, hl₂, hl₃⟩ := same_iff.1 hsame
        obtain ⟨input, hinput⟩ := hstored.entered _ _ last hlast
        have hflag := Frame.ThisMarked.flag_eq_of_same (hmarked _ _ input hinput)
          (hthis.of_covers hnew) (effect_run hrun) (hold input hinput) hl₃
        have hdemand : ∀ t ∈ dueTasks g item out₀ chain succ, t.demand s' = t.demand s :=
          fun t ht => demand_eq ht (by simpa [hn, hk, hget, hinput, hs₃, hl₃] using hflag)
        exact .inr ⟨item, out₀, chain, succ, hn, hk,
          same_iff.2 ⟨hs₁.trans hl₁, hs₂.trans hl₂, hs₃.trans hl₃⟩, hl,
          due_or_met hgrows hdemand hdone htasks⟩
  · next he =>
    rcases h.settled u k out' hout' with ⟨item, hitem, hn, hk⟩ |
      ⟨item, out₀, chain, succ, hn, hk, hs, hl, htasks⟩
    · exact .inl ⟨item, mem_append_left _ hitem, hn, hk⟩
    · have hdemand : ∀ t ∈ dueTasks g item out₀ chain succ, t.demand s' = t.demand s :=
        fun t ht => demand_eq ht (by rw [hn, hk, hget, if_neg he])
      exact .inr ⟨item, out₀, chain, succ, hn, hk, hs, hl, due_or_met hgrows hdemand hdone htasks⟩

/-- The invariant holds at each moment of data flow. -/
theorem of_reaches {code : Array Instruction} {table : List Handler} {pool : ConstantPool}
    (hc : c.hierarchy.Coherent) (hg : g.toCodeEdges.Built code table pool)
    (h : Reaches c g tasks queue s) :
    ∃ initial, c.initialFrame = .ok initial ∧ Progress c g initial tasks queue s := by
  induction h with
  | @start f hf => exact ⟨f, hf, .start⟩
  | visit _ hl ih =>
    obtain ⟨initial, hinitial, hprogress⟩ := ih
    exact ⟨initial, hinitial, hprogress.visit hl⟩
  | @perform task tasks queue s s' f changed hreaches hf hexec ih =>
    obtain ⟨initial, hinitial, hprogress⟩ := ih
    refine ⟨initial, hinitial, ?_⟩
    have hinv := thisMarked_invariant (g := g) hc
    obtain ⟨hmarked, -, htasks⟩ := hinv.of_reaches hg hreaches
    have hstep := executed_execute hexec
    cases hstep with
    | absorbed stored merge inputs outputs =>
      simpa [queued] using hprogress.perform_absorbed hc hf stored merge inputs outputs
    | ran arrives check run inputs outputs =>
      have hstored := Stored.of_reaches hg hreaches
      have hframe := hinv.of_frame (hstored.guarded task mem_cons_self)
        (htasks task mem_cons_self) hf
      exact hprogress.perform_ran hc hstored hmarked hf hframe arrives run inputs outputs

theorem fixedPoint (hf : c.initialFrame = .ok initial) (hstored : Stored c g [] s)
    (h : Progress c g initial [] [] s) : FixedPoint c g s := by
  have hmet : ∀ u k out, s.outputs.get? u k = some out → ∃ item out₀ chain successors,
      item.node = u ∧ item.chain.key = k ∧ out₀.same out = true ∧
      Leads g u k chain.key successors ∧
      ∀ task ∈ dueTasks g item out₀ chain successors, Met c s task := by
    intro u k out hout
    obtain ⟨item, out₀, chain, succ, hn, hk, hs, hl, htasks⟩ :=
      (h.settled u k out hout).resolve_left (by simp)
    exact ⟨item, out₀, chain, succ, hn, hk, hs, hl, fun t ht =>
      (htasks t ht).resolve_left (by simp)⟩
  have hrefl : ∀ f : Frame, f.same f = true := fun f => same_iff.2 ⟨rfl, rfl, rfl⟩
  refine ⟨?_, hstored.executed, hstored.entered, ?_, ?_, ?_⟩
  · obtain ⟨first, hfirst, hcovers⟩ := h.entry.resolve_left (by simp)
    exact ⟨initial, first, hf, hfirst, hcovers⟩
  · intro u k out hout hret v hv
    obtain ⟨item, out₀, chain, succ, rfl, rfl, hs, hl, htasks⟩ := hmet u k out hout
    obtain ⟨rfl, hkey⟩ := hl.static hret
    obtain ⟨f, hf, hcovers⟩ := htasks (.flow v out₀ chain)
      (mem_append_left _ (mem_map.2 ⟨v, hv, rfl⟩))
    exact ⟨f, hkey ▸ hf, hcovers.of_same (hrefl f) hs⟩
  · intro u k out hout hret
    obtain ⟨item, out₀, chain, succ, rfl, rfl, hs, hl, htasks⟩ := hmet u k out hout
    obtain ⟨call, next, hcall, hnext, rfl⟩ := hl.back hret
    obtain ⟨f, hf, hcovers⟩ := htasks (.flow next out₀ chain)
      (mem_append_left _ (mem_map.2 ⟨next, mem_cons_self, rfl⟩))
    exact ⟨call, next, _, f, hcall, hnext, hf, hcovers.of_same (hrefl f) hs⟩
  · intro u k input out hinput hout guard hguard
    obtain ⟨item, out₀, chain, succ, rfl, rfl, hs, hl, htasks⟩ := hmet u k out hout
    obtain ⟨f, hf, hcovers⟩ := htasks (.handle guard item.node item.chain.key out₀)
      (mem_append_right _ (mem_map.2 ⟨guard, hguard, rfl⟩))
    obtain ⟨-, hs₂, hs₃⟩ := same_iff.1 hs
    refine ⟨f, hf, hcovers.of_same (hrefl f) (same_iff.2 ⟨rfl, hs₂, ?_⟩)⟩
    simp [Task.demand, caughtFrame, hinput, hs₃]

end Progress

theorem FixedPoint.of_sameFrames {s₀ : FlowState} (h : FixedPoint c g s₀)
    (hsame : SameFrames s s₀) : FixedPoint c g s := by
  obtain ⟨hinputs, houtputs⟩ := hsame
  refine ⟨?_, ?_, ?_, ?_, ?_, ?_⟩
  · rw [hinputs]
    exact h.entry
  · rw [hinputs, houtputs]
    exact h.executed
  · rw [hinputs, houtputs]
    exact h.entered
  · rw [hinputs, houtputs]
    exact h.successor
  · rw [hinputs, houtputs]
    exact h.back
  · rw [hinputs, houtputs]
    exact h.caught

theorem fixedPoint_of_solve {code : Array Instruction} {table : List Handler} {pool : ConstantPool}
    (hc : c.hierarchy.Coherent) (hg : g.toCodeEdges.Built code table pool)
    (hs : c.solve g = (s, .ok ())) : FixedPoint c g s := by
  obtain ⟨s₀, hreaches, hsame⟩ := (solve_reaches hs).1 rfl
  obtain ⟨initial, hinitial, hprogress⟩ := Progress.of_reaches hc hg hreaches
  exact (hprogress.fixedPoint hinitial (.of_reaches hg hreaches)).of_sameFrames hsame

end MethodContext

/-! ### Accepted methods -/

/-- The frames of an accepted method are a fixed point. -/
theorem accepted_fixedPoint (t : ClassTable) (options : VerifyOptions) (runId : String)
    (owner : Class) (m : Method) (verdict : Verdict) (s : FlowState)
    (hverdict : (verifyTraced t options runId owner m).verdict = .ok verdict)
    (haccepted : verdict.status = .accepted)
    (hflow : (verifyTraced t options runId owner m).flow = some s) :
    ∃ prepared g, m.prepare owner.pool = .ok prepared ∧
      FlowGraph.build prepared.code m.handlers owner.pool options.strict = .ok g ∧
      MethodContext.FixedPoint ⟨t, owner, m, prepared.type⟩ g s := by
  obtain ⟨prepared, g, r, hprepared, hg, hsolve, hr⟩ := verifyTraced_flow hflow
  rw [hr ⟨verdict, hverdict, haccepted⟩] at hsolve
  exact ⟨prepared, g, hprepared, hg,
    MethodContext.fixedPoint_of_solve t.coherent (FlowGraph.built_of_build hg) hsolve⟩

/-- A class for methods that use no other. -/
def plainClass : Class where
  name := "app/Main"
  super := some objectClass

/-- The classes that such methods need. -/
def plainTable : ClassTable :=
  ⟨[{ name := objectClass, super := none }, { name := throwableClass, super := some objectClass },
    plainClass]⟩

/-- A loop around a subroutine call that a handler guards. -/
def callInLoop : Method where
  name := "callInLoop"
  descriptor := "(I)V"
  access := .staticBit
  maxStack := 1
  maxLocals := 2
  -- jsr 8, iload_0, ifne 0, return; astore_1, ret 1; pop, return
  code := [0xa8, 0x00, 0x08, 0x1a, 0x9a, 0xff, 0xfc, 0xb1, 0x4c, 0xa9, 0x01, 0x57, 0xb1]
  handlers := [{ start := 0, stop := 3, target := 11, catchIndex := 0 }]

theorem accepted_fixedPoint_callInLoop : ∃ s prepared g,
    (verifyTraced plainTable {} "" plainClass callInLoop).flow = some s ∧
    callInLoop.prepare plainClass.pool = .ok prepared ∧
    FlowGraph.build prepared.code callInLoop.handlers plainClass.pool true = .ok g ∧
    MethodContext.FixedPoint ⟨plainTable, plainClass, callInLoop, prepared.type⟩ g s := by
  obtain ⟨verdict, hverdict, haccepted⟩ : ∃ verdict,
      (verifyTraced plainTable {} "" plainClass callInLoop).verdict = .ok verdict ∧
      verdict.status = .accepted := by decide +kernel
  have hsome : (verifyTraced plainTable {} "" plainClass callInLoop).flow.isSome = true := by
    decide +kernel
  obtain ⟨s, hflow⟩ := Option.isSome_iff_exists.1 hsome
  obtain ⟨prepared, g, hprepared, hg, hfixed⟩ := accepted_fixedPoint plainTable {} "" plainClass
    callInLoop verdict s hverdict haccepted hflow
  exact ⟨s, prepared, g, hflow, hprepared, hg, hfixed⟩

end Bytecode
