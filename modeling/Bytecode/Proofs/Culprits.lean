import Bytecode.Proofs.DiagnosticTrails

/-!
The instruction that a diagnostic names, and the one that the rejection is about.

A diagnostic is that of what was looked at last. Each execution notes its node before anything can
go wrong, so for a merge or a demand that fails the two are the same. A handler finds no room on the
stack before anything of it is executed, so then the diagnostic names what was executed before it.

* `RejectsAt`, `LacksRoom`: the two kinds of rejections, and the node that was looked at last;
* `Underway`: what is due is what is left of one visit, of which the rest has been performed;
* `diagnostic_culprit`: each rejection by data flow is of one of the two kinds.
-/
namespace Bytecode

open List

namespace MethodContext

variable {c : MethodContext} {g : FlowGraph} {tasks : List Task} {queue : List WorkItem}
  {s : FlowState} {r : Rejection}

/-- A rejection is about a node that is executed: the frame that arrives cannot be merged into the
stored one, or the instruction demands more of it. -/
def RejectsAt (c : MethodContext) (g : FlowGraph) (n : Nat) (r : Rejection) : Prop :=
  ∃ task tasks queue s f, Reaches c g (task :: tasks) queue s ∧ task.node = n ∧
    task.frame g s = .ok f ∧
    ((∃ old merged e, s.inputs.get? n task.chain.key = some old ∧
      Frame.merge c.hierarchy old f = (merged, .error e) ∧
      mergingInto (g.instruction n) e = .rejected r) ∨
    ∃ new, Arrives c.hierarchy (s.inputs.get? n task.chain.key) f new ∧
      c.check (g.instruction n) new = .error (.rejected r))

/-- A rejection is about an instruction that is guarded while the stack has no room for an
exception. Node `n` is the last one that the instruction leads to or, if there is none, what was
looked at last before it was left. -/
def LacksRoom (c : MethodContext) (g : FlowGraph) (n : Nat) (r : Rejection) : Prop :=
  ∃ item queue s out chain successors guard, Reaches c g [] (item :: queue) s ∧
    leaving g item s = .ok (out, chain, successors) ∧
    (g.guardsOf item.node).head? = some guard ∧ c.method.maxStack = 0 ∧
    r = .handlerStack (g.instruction item.node) (g.instruction guard.entry).pos ∧
    successors.getLast?.or (s.last.map Visit.node) = some n

/-- What is due is what is left of one visit, and the node that was performed last is what was
looked at last. -/
inductive Underway (c : MethodContext) (g : FlowGraph) : List Task → FlowState → Prop
  | start {f : Frame} {s : FlowState} : Underway c g [.flow 0 f .empty] s
  | idle {s : FlowState} {v : Visit} (last : s.last = some v) : Underway c g [] s
  | visiting {item : WorkItem} {queue : List WorkItem} {s₀ s : FlowState} {out : Frame}
      {chain : CallChain} {successors : List Nat} {done tasks : List Task} {v : Visit}
      (reaches : Reaches c g [] (item :: queue) s₀)
      (leaves : leaving g item s₀ = .ok (out, chain, successors))
      (due : dueTasks g item out chain successors = done ++ tasks)
      (performed : ∀ task ∈ done, ∃ s f, task.frame g s = .ok f) (last : s.last = some v)
      (node : (done.map Task.node).getLast?.or (s₀.last.map Visit.node) = some v.node) :
      Underway c g tasks s

theorem Underway.of_reaches (h : Reaches c g tasks queue s) : Underway c g tasks s := by
  induction h with
  | start => exact .start
  | visit hreaches hleaves ih =>
    obtain ⟨v, hv⟩ : ∃ v, FlowState.last _ = some v := by
      cases ih with
      | idle last => exact ⟨_, last⟩
      | visiting _ _ _ _ last => exact ⟨_, last⟩
    exact .visiting hreaches hleaves (nil_append _).symm (by simp) hv (by simp [hv])
  | @perform task tasks queue s s' f changed _ hf hexec ih =>
    obtain ⟨f', hlast⟩ := last_execute c g task.node f task.chain s
    rw [hexec] at hlast
    -- The task that was performed goes over to those that are done.
    cases ih with
    | start => exact .idle hlast
    | @visiting _ _ _ _ _ _ _ done _ _ hreaches hleaves hdue hperformed =>
      rw [append_cons] at hdue
      refine .visiting hreaches hleaves hdue ?_ hlast (by simp)
      intro other hother
      rcases mem_append.1 hother with hother | hother
      · exact hperformed other hother
      · rw [mem_singleton.1 hother]
        exact ⟨s, f, hf⟩

theorem Task.frame_rejected {task : Task} (h : task.frame g s = .error (.rejected r)) :
    ∃ guard source key out, task = .handle guard source key out ∧ out.stack.max < 1 ∧
      r = .handlerStack (g.instruction source) (g.instruction guard.entry).pos := by
  cases task with
  | flow => cases h
  | handle guard source key out =>
    rw [frame] at h
    split at h
    · next hroom =>
      cases h
      exact ⟨guard, source, key, out, rfl, hroom, rfl⟩
    · cases hframe : handlerFrame guard out (s.inputs.get? source key) <;>
        rw [hframe] at h <;> cases h

/-- Only the first handler of a visit lacks room, once all successors have been performed. -/
theorem lacksRoom_of_frame {code : Array Instruction} (hready : Ready c g code) {task : Task}
    (h : Reaches c g (task :: tasks) queue s) (hframe : task.frame g s = .error (.rejected r)) :
    ∃ v, s.last = some v ∧ LacksRoom c g v.node r := by
  obtain ⟨_, source, key, _, rfl, hroom, rfl⟩ := Task.frame_rejected hframe
  cases Underway.of_reaches h with
  | @visiting item _ s₀ _ out chain successors done _ v hreaches hleaves hdue hperformed hlast
      hnode =>
    have hmem := hdue ▸ mem_append_right done (mem_cons_self (l := tasks))
    simp only [dueTasks, mem_append, mem_map, reduceCtorEq, and_false, exists_false,
      false_or, Task.handle.injEq] at hmem
    obtain ⟨guard, -, rfl, rfl, rfl, rfl⟩ := hmem
    have hsplit : successors.map (.flow · out chain) = done ∧
        (g.guardsOf item.node).map (.handle · item.node item.chain.key out) =
          .handle guard item.node item.chain.key out :: tasks := by
      rcases append_eq_append_iff.1 hdue with ⟨_ | ⟨x, extra⟩, hdone, hrest⟩ |
        ⟨_ | ⟨x, extra⟩, hflows, hrest⟩
      · exact ⟨by simpa using hdone.symm, by simpa using hrest⟩
      · -- An earlier handler would have been performed without room.
        have hx : x ∈ (g.guardsOf item.node).map (.handle · item.node item.chain.key out) := by
          rw [hrest]
          exact mem_cons_self
        obtain ⟨other, -, rfl⟩ := mem_map.1 hx
        obtain ⟨s₁, f, hf⟩ := hperformed (.handle other item.node item.chain.key out)
          (by rw [hdone]; simp)
        rw [Task.frame, if_pos hroom] at hf
        cases hf
      · exact ⟨by simpa using hflows, by simpa using hrest.symm⟩
      · obtain ⟨rfl, -⟩ := List.cons.inj hrest
        have hx : Task.handle guard item.node item.chain.key out ∈
            successors.map (.flow · out chain) := by
          rw [hflows]
          simp
        obtain ⟨_, -, ⟨⟩⟩ := mem_map.1 hx
    obtain ⟨rfl, hguards⟩ := hsplit
    have hmax : out.stack.max = c.method.maxStack :=
      (((fits_invariant hready).of_reaches hready.built h).2.2 _ mem_cons_self).max
    have hstack := hready.prepared.stack
    refine ⟨v, hlast, item, _, s₀, out, chain, successors, guard, hreaches, hleaves, ?_,
      by omega, rfl, ?_⟩
    · obtain ⟨_, _, hhead, heq, -⟩ := map_eq_cons_iff.1 hguards
      cases heq
      rw [hhead]
      rfl
    · simpa [Function.comp_def, Task.node] using hnode

theorem rejectsAt_of_execute {task : Task} {f : Frame} {s' : FlowState}
    (h : Reaches c g (task :: tasks) queue s) (hf : task.frame g s = .ok f)
    (hexec : c.execute g task.node f task.chain s = (s', .error (.rejected r))) :
    RejectsAt c g task.node r := by
  refine ⟨task, tasks, queue, s, f, h, rfl, hf, ?_⟩
  have hstep := executed_execute hexec
  generalize hresult : (Except.error (Failure.rejected r) : Except Failure Bool) = result at hstep
  cases hstep with
  | clash stored merge => exact .inl ⟨_, _, _, stored, merge, (Except.error.inj hresult).symm⟩
  | refused arrives check =>
    cases hresult
    exact .inr ⟨_, arrives, check⟩
  | _ => cases hresult

/-- A rejection is about what was looked at last, or a guarded instruction lacks room. -/
theorem culprit_of_breaks {code : Array Instruction} (hready : Ready c g code)
    (h : Breaks c g s (.rejected r)) :
    ∃ v, s.last = some v ∧ (RejectsAt c g v.node r ∨ LacksRoom c g v.node r) := by
  generalize hfailure : Failure.rejected r = e at h
  cases h with
  | initial => cases hfailure
  | leaving => cases hfailure
  | frame hreaches hframe =>
    subst hfailure
    obtain ⟨v, hv, hroom⟩ := lacksRoom_of_frame hready hreaches hframe
    exact ⟨v, hv, .inr hroom⟩
  | @execute task _ _ s _ f _ hreaches hf hexec =>
    subst hfailure
    obtain ⟨f', hlast⟩ := last_execute c g task.node f task.chain s
    rw [hexec] at hlast
    exact ⟨_, hlast, .inl (rejectsAt_of_execute hreaches hf hexec)⟩

end MethodContext

/-- A rejection by data flow comes with a diagnostic. It names the instruction at which frames could
not be merged or whose demands were not met. For a guarded instruction in a method without a stack
it does not: it names the last instruction that was executed before the handler. -/
theorem diagnostic_culprit {h : Hierarchy} {options : VerifyOptions} {runId : String}
    {owner : Class} {m : Method} {prepared : PreparedCode} {g : FlowGraph} {verdict : Verdict}
    (hprepared : m.prepare owner.pool = .ok prepared)
    (hg : FlowGraph.build prepared.code m.handlers owner.pool options.strict = .ok g)
    (hverify : verify h options runId owner m = .ok verdict)
    (hstatus : verdict.status = .rejected) :
    ∃ r d n, verdict.message = r.message ∧ verdict.diagnostic = some d ∧ n < g.size ∧
      d.instruction = (g.instruction n).text ∧ d.offset = (g.instruction n).pos ∧
      (MethodContext.RejectsAt ⟨h, owner, m, prepared.type⟩ g n r ∨
        MethodContext.LacksRoom ⟨h, owner, m, prepared.type⟩ g n r) := by
  unfold verify verifyTraced at hverify
  simp only [hprepared, hg] at hverify
  rcases hsolve : MethodContext.solve ⟨h, owner, m, prepared.type⟩ g with ⟨s, outcome⟩
  simp only [hsolve] at hverify
  split at hverify
  · cases hverify
    cases hstatus
  split at hverify
  · cases hverify
    cases hstatus
  · cases hverify
  · next r =>
    cases hverify
    have hready : MethodContext.Ready ⟨h, owner, m, prepared.type⟩ g prepared.code :=
      .of_build hprepared hg
    have hbreaks := MethodContext.breaks_of_solve_rejected hready.built hsolve
    obtain ⟨v, hv, hculprit⟩ := MethodContext.culprit_of_breaks hready hbreaks
    have htrail := (MethodContext.Trailed.of_breaks hbreaks v hv).trail
    exact ⟨r, v.diagnostic g options.traceLimit, v.node, rfl, by rw [hv]; rfl,
      htrail.lt_size hready.built (by simp), rfl, rfl, hculprit⟩

/-- The empty stack after a call is refused at the instruction that pops it. -/
theorem diagnostic_culprit_popAfterCall : ∃ prepared g verdict r d n,
    popAfterCall.prepare plainClass.pool = .ok prepared ∧
    FlowGraph.build prepared.code popAfterCall.handlers plainClass.pool true = .ok g ∧
    verify plainTable {} "" plainClass popAfterCall = .ok verdict ∧ verdict.status = .rejected ∧
    verdict.message = r.message ∧ verdict.diagnostic = some d ∧
    d.instruction = (g.instruction n).text ∧
    (MethodContext.RejectsAt ⟨plainTable, plainClass, popAfterCall, prepared.type⟩ g n r ∨
      MethodContext.LacksRoom ⟨plainTable, plainClass, popAfterCall, prepared.type⟩ g n r) := by
  obtain ⟨verdict, hverify, hstatus⟩ : ∃ verdict,
      verify plainTable {} "" plainClass popAfterCall = .ok verdict ∧
      verdict.status = .rejected := by decide +kernel
  obtain ⟨prepared, hprepared, g, hg, -⟩ : ∃ prepared,
      popAfterCall.prepare plainClass.pool = .ok prepared ∧
      ∃ g, FlowGraph.build prepared.code popAfterCall.handlers plainClass.pool true = .ok g ∧
      g.size = 5 := by decide +kernel
  obtain ⟨r, d, n, hmessage, hd, -, htext, -, hculprit⟩ :=
    @diagnostic_culprit plainTable {} "" plainClass popAfterCall prepared g verdict hprepared hg
      hverify hstatus
  exact ⟨prepared, g, verdict, r, d, n, hprepared, hg, hverify, hstatus, hmessage, hd, htext,
    hculprit⟩

/-- The first of two instructions is guarded, and there is no stack. -/
def guardedWithoutStack : Method where
  name := "guarded"
  descriptor := "()V"
  access := .staticBit
  maxStack := 0
  maxLocals := 0
  -- nop, return
  code := [0x00, 0xb1]
  handlers := [⟨0, 1, 1, 0⟩]

/-- The message starts with the guarded instruction, and the diagnostic names the one after it. -/
theorem diagnostic_guardedWithoutStack : ∃ verdict,
    verify plainTable {} "" plainClass guardedWithoutStack = .ok verdict ∧
    verdict.message = "0: nop is protected by the exception handler at 1 but max_stack is 0" ∧
    ∃ d, verdict.diagnostic = some d ∧ d.instruction = "1: return" ∧ d.offset = 1 := by
  decide +kernel

end Bytecode
