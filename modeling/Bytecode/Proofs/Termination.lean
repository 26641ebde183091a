import Mathlib.Algebra.Order.BigOperators.Group.Finset
import Bytecode.Proofs.Consistency
import Bytecode.Proofs.Heights

/-!
Data flow ends.

Every frame on entry of a node has a height, and a merge that changes it lowers the height. There
are finitely many nodes and contexts, so the sum of all heights, with one step more where nothing is
stored yet, bounds the changes that are still to come (`ahead`). A visit takes one node from the
queue and queues one for each change, so that together with the queue the sum gets smaller with each
visit.

Main statements: `settles_of_reaches`, the loop ends within the bound that `solve` gives it;
`exists_finish`, every moment of data flow lies on the run of `solve`, so that a failure there is
its outcome.
-/
namespace Bytecode

open List

namespace MethodContext

open FlowGraph

variable {t : ClassTable} {c : MethodContext} {g : FlowGraph} {code : Array Instruction}
  {task : Task} {tasks : List Task} {queue : List WorkItem} {s s' : FlowState} {f new : Frame}

/-! ### Contexts -/

/-- The contexts that a frame can have: the top level and the calls. -/
def contexts (g : FlowGraph) : Finset CallKey :=
  insert .topLevel ((Finset.range g.size).image .call)

theorem card_contexts_le (g : FlowGraph) : (contexts g).card ≤ g.size + 1 := by
  have hcalls : ((Finset.range g.size).image CallKey.call).card ≤ g.size := by
    simpa using Finset.card_image_le (s := Finset.range g.size) (f := CallKey.call)
  have hinsert := Finset.card_insert_le CallKey.topLevel ((Finset.range g.size).image .call)
  unfold contexts
  omega

variable {n fuel : Nat} {changed : Bool} {items : List WorkItem} {item : WorkItem} {e : Failure}
  {chain : CallChain}

theorem keyOf_mem_contexts {calls : List OpenCall} (hg : g.Partitioned) (h : g.Located calls n) :
    keyOf calls ∈ contexts g := by
  cases h with
  | top => exact Finset.mem_insert_self _ _
  | under outer =>
    have hlt := outer.lt hg
    exact Finset.mem_insert_of_mem (Finset.mem_image_of_mem _ (Finset.mem_range.2 hlt))

/-- Frames are stored for finitely many nodes and contexts. -/
theorem mem_contexts_of_reaches (h : Ready c g code) (hreaches : Reaches c g tasks queue s)
    {k : CallKey} (hstored : (s.inputs.get? n k).isSome) : n < g.size ∧ k ∈ contexts g := by
  obtain ⟨f, hf⟩ := Option.isSome_iff_exists.1 hstored
  have htracked := Tracked.of_reaches h.built h.prepared.laid h.partitioned hreaches
  obtain ⟨calls, rfl, hstanding⟩ := htracked.stored n k f hf
  exact ⟨hstanding.located.lt h.partitioned, keyOf_mem_contexts h.partitioned hstanding.located⟩

/-! ### The loop -/

/-- What the loop over a queue ends with, however many visits it takes. -/
inductive Settles (c : MethodContext) (g : FlowGraph) :
    List WorkItem → FlowState → FlowStep Unit → Prop
  | done {s : FlowState} : Settles c g [] s (s, .ok ())
  | fails {item : WorkItem} {queue : List WorkItem} {s s' : FlowState} {e : Failure}
      (visit : c.visit g item s = (s', .error e)) : Settles c g (item :: queue) s (s', .error e)
  | goesOn {item : WorkItem} {queue items : List WorkItem} {s s' : FlowState} {r : FlowStep Unit}
      (visit : c.visit g item s = (s', .ok items)) (rest : Settles c g (queue ++ items) s' r) :
      Settles c g (item :: queue) s r

/-- A loop that ends goes through moments of data flow, and fails where a step does. -/
theorem Settles.reaches {r : FlowStep Unit} (h : Settles c g queue s r)
    (hreaches : Reaches c g [] queue s) :
    (r.2 = .ok () → Reaches c g [] [] r.1) ∧ ∀ e, r.2 = .error e → Breaks c g r.1 e := by
  induction h with
  | done => exact ⟨fun _ => hreaches, by simp⟩
  | fails hvisit =>
    refine ⟨by simp, ?_⟩
    rintro _ ⟨⟩
    exact (visit_reaches hreaches hvisit).2 _ rfl
  | goesOn hvisit _ ih => exact ih ((visit_reaches hreaches hvisit).1 _ rfl)

/-! ### Moments on the run -/

/-- What is left of a run: the executions that are due, then the queue. -/
def finish (c : MethodContext) (g : FlowGraph) (fuel : Nat) (tasks : List Task)
    (queue : List WorkItem) (s : FlowState) : FlowStep Unit :=
  match c.performAll g tasks s with
  | (s, .error e) => (s, .error e)
  | (s, .ok items) => c.settle g fuel (queue ++ items) s

theorem finish_nil (fuel : Nat) : c.finish g fuel [] queue s = c.settle g fuel queue s := by
  simp only [finish, performAll, append_nil]

theorem finish_cons (hf : task.frame g s = .ok f)
    (hexec : c.execute g task.node f task.chain s = (s', .ok changed)) :
    c.finish g fuel (task :: tasks) queue s =
      c.finish g fuel tasks (queue ++ queued task changed) s' := by
  simp only [finish, performAll, hf, hexec]
  rcases c.performAll g tasks s' with ⟨s₁, e | items⟩
  · rfl
  · simp only [append_assoc]

theorem finish_error (hf : task.frame g s = .ok f)
    (hexec : c.execute g task.node f task.chain s = (s', .error e)) :
    c.finish g fuel (task :: tasks) queue s = (s', .error e) := by
  simp only [finish, performAll, hf, hexec]

theorem settle_eq_finish {out : Frame} {successors : List Nat}
    (hl : leaving g item s = .ok (out, chain, successors)) :
    c.settle g (fuel + 1) (item :: queue) s =
      c.finish g fuel (dueTasks g item out chain successors) queue s := by
  rw [settle, visit_eq, hl]
  rfl

theorem solve_eq_finish (hf : c.initialFrame = .ok f) : c.solve g =
    match c.finish g (c.visitBound g) [.flow 0 f .empty] [] (startState g) with
    | (s, .error e) => (s, .error e)
    | (s, .ok ()) => c.scanExits g s (List.range g.size) := by
  rw [solve, hf]
  dsimp only
  rcases hexec : c.execute g 0 f .empty (startState g) with ⟨s, e | changed⟩
  · rw [finish_error rfl hexec]
  · rw [finish_cons rfl hexec, finish_nil, execute_start_changed hexec]
    rfl

/-! ### What is ahead -/

theorem frameHeight_le_frameBound (ht : c.hierarchy = t.hierarchy) (hf : c.Fits f) :
    t.frameHeight f ≤ c.frameBound := by
  have hlength := length_le_slotsOf f.stack.values
  have hroom := hf.room
  rw [hf.max] at hroom
  have hslots : f.stack.values.length + f.locals.size ≤
      c.method.maxStack.toNat + c.method.maxLocals.toNat := by
    rw [hf.locals]
    omega
  have hsize : c.hierarchy.size = t.size := by
    rw [ht]
    rfl
  rw [frameBound, hsize]
  exact (t.frameHeight_le f).trans (Nat.succ_le_succ (Nat.mul_le_mul_right _ hslots))

/-- The changes that a place for a frame has before it. -/
def remaining (t : ClassTable) (c : MethodContext) : Option Frame → Nat
  | none => c.frameBound + 1
  | some f => t.frameHeight f

/-- A frame that is new on entry of a node takes one of them. -/
theorem remaining_lt_of_arrives (ht : c.hierarchy = t.hierarchy) (hrooted : t.Rooted)
    {stored : Option Frame} (hnew : c.Fits new) (h : Arrives c.hierarchy stored f new) :
    remaining t c (some new) < remaining t c stored := by
  cases h with
  | first hnone =>
    subst hnone
    exact Nat.lt_succ_of_le (frameHeight_le_frameBound ht hnew)
  | grown hold hmerge =>
    subst hold
    rw [ht] at hmerge
    exact ClassTable.frameHeight_merge hrooted hmerge

/-- The changes that all places have before them. -/
def ahead (t : ClassTable) (c : MethodContext) (g : FlowGraph) (s : FlowState) : Nat :=
  ∑ place ∈ Finset.range g.size ×ˢ contexts g, remaining t c (s.inputs.get? place.1 place.2)

theorem ahead_start_lt (t : ClassTable) (c : MethodContext) (g : FlowGraph) :
    ahead t c g (startState g) < c.visitBound g := by
  have hcard : (Finset.range g.size ×ˢ contexts g).card ≤ g.size * (g.size + 1) := by
    rw [Finset.card_product, Finset.card_range]
    exact Nat.mul_le_mul_left _ (card_contexts_le g)
  have hsum : ahead t c g (startState g) =
      (Finset.range g.size ×ˢ contexts g).card * (c.frameBound + 1) := by
    simp [ahead, startState, remaining]
  rw [hsum, visitBound]
  exact Nat.lt_succ_of_le (Nat.mul_le_mul_right _ hcard)

section Rooted

variable (h : Ready c g code) (ht : c.hierarchy = t.hierarchy) (hrooted : t.Rooted)

include h ht hrooted

/-- What an execution queues, the sum loses. -/
theorem ahead_execute (hreaches : Reaches c g (task :: tasks) queue s) (hf : task.frame g s = .ok f)
    (hexec : c.execute g task.node f task.chain s = (s', .ok changed)) :
    ahead t c g s' + (queued task changed).length ≤ ahead t c g s := by
  have hstep := executed_execute hexec
  cases hstep with
  | absorbed _ _ inputs =>
    -- Nothing is stored, and nothing is queued.
    rw [ahead, inputs]
    exact Nat.le_refl _
  | @ran new out arrives _ _ inputs =>
    have hstored := Stored.of_reaches h.built hreaches
    have htracked := Tracked.of_reaches h.built h.prepared.laid h.partitioned hreaches
    -- The new frame keeps the limits of the method, so that its height is bounded.
    have hfits := fits_invariant h
    obtain ⟨hin, -, hgiven⟩ := hfits.of_reaches h.built hreaches
    have hnew : c.Fits new := hfits.of_arrives (fun old => hin _ _ old)
      (hfits.of_frame (hstored.guarded task mem_cons_self) (hgiven task mem_cons_self) hf)
      arrives
    have hlt := remaining_lt_of_arrives ht hrooted hnew arrives
    obtain ⟨calls, hcalls, hlocated, -⟩ := htracked.due task mem_cons_self s f hf
    have hkey : task.chain.key ∈ contexts g := by
      rw [key_eq_keyOf hcalls]
      exact keyOf_mem_contexts h.partitioned hlocated
    have hplace : (task.node, task.chain.key) ∈ Finset.range g.size ×ˢ contexts g :=
      Finset.mem_product.2 ⟨Finset.mem_range.2 (hlocated.lt h.partitioned), hkey⟩
    -- One place gets lower, and the others stay.
    have hsum : ahead t c g s' < ahead t c g s := by
      refine Finset.sum_lt_sum (fun place _ => ?_) ⟨_, hplace, ?_⟩
      · rw [hstored.get?_inputs inputs]
        split
        · next heq =>
          obtain ⟨hnode, hkey⟩ := heq
          rw [hnode, hkey] at hlt
          exact hlt.le
        · exact le_rfl
      · rw [hstored.get?_inputs inputs, if_pos ⟨rfl, rfl⟩]
        exact hlt
    have hlength : (queued task (!(s.outputs.get? task.node task.chain.key).any
        (·.same out))).length ≤ 1 := by
      unfold queued
      split <;> simp
    omega

theorem ahead_performAll (hreaches : Reaches c g tasks queue s)
    (hall : c.performAll g tasks s = (s', .ok items)) :
    ahead t c g s' + items.length ≤ ahead t c g s := by
  induction tasks generalizing queue s items with
  | nil =>
    cases hall
    exact Nat.le_refl _
  | cons task tasks ih =>
    obtain ⟨f, s₁, changed, more, hf, hexec, hrest, rfl⟩ := performAll_cons_ok hall
    have hfirst := ahead_execute h ht hrooted hreaches hf hexec
    have hlater := ih (.perform hreaches hf hexec) hrest
    rw [length_append]
    omega

theorem ahead_visit (hreaches : Reaches c g [] (item :: queue) s)
    (hvisit : c.visit g item s = (s', .ok items)) :
    ahead t c g s' + items.length ≤ ahead t c g s := by
  rw [visit_eq] at hvisit
  split at hvisit
  · cases hvisit
  · next hl => exact ahead_performAll h ht hrooted (.visit hreaches hl) hvisit

/-- With enough visits the loop ends. The induction is on their number. -/
theorem settles_of_reaches (hreaches : Reaches c g [] queue s)
    (hfuel : queue.length + ahead t c g s ≤ fuel) :
    Settles c g queue s (c.settle g fuel queue s) := by
  induction fuel generalizing queue s with
  | zero =>
    cases queue with
    | nil => exact .done
    | cons item queue =>
      rw [length_cons] at hfuel
      omega
  | succ fuel ih =>
    cases queue with
    | nil => exact .done
    | cons item queue =>
      rw [settle]
      rcases hvisit : c.visit g item s with ⟨s', e | items⟩
      · exact .fails hvisit
      · have hless := ahead_visit h ht hrooted hreaches hvisit
        rw [length_cons] at hfuel
        refine .goesOn hvisit (ih ((visit_reaches hreaches hvisit).1 items rfl) ?_)
        rw [length_append]
        omega

/-- Every moment of data flow lies on its run, with visits enough for what is ahead. -/
theorem exists_finish (hreaches : Reaches c g tasks queue s) : ∃ f fuel, c.initialFrame = .ok f ∧
      c.finish g (c.visitBound g) [.flow 0 f .empty] [] (startState g) =
        c.finish g fuel tasks queue s ∧
      queue.length + ahead t c g s ≤ fuel := by
  induction hreaches with
  | start initial =>
    have hstart := ahead_start_lt t c g
    refine ⟨_, _, initial, rfl, ?_⟩
    rw [length_nil]
    omega
  | @visit item queue s out chain successors reaches leaves ih =>
    obtain ⟨f, fuel, hf, hrun, hfuel⟩ := ih
    rw [length_cons] at hfuel
    -- The queue is not empty, so a visit is left.
    obtain ⟨fuel, rfl⟩ : ∃ fuel', fuel = fuel' + 1 := ⟨fuel - 1, by omega⟩
    refine ⟨f, fuel, hf, ?_, by omega⟩
    rw [hrun, finish_nil, settle_eq_finish leaves]
  | perform reaches frame execute ih =>
    obtain ⟨f, fuel, hf, hrun, hfuel⟩ := ih
    have hless := ahead_execute h ht hrooted reaches frame execute
    refine ⟨f, fuel, hf, ?_, ?_⟩
    · rw [hrun, finish_cons frame execute]
    · rw [length_append]
      omega

theorem solve_of_execute_error (hreaches : Reaches c g (task :: tasks) queue s)
    (hf : task.frame g s = .ok f)
    (hexec : c.execute g task.node f task.chain s = (s', .error e)) :
    c.solve g = (s', .error e) := by
  obtain ⟨f₀, fuel, hinitial, hrun, -⟩ := exists_finish h ht hrooted hreaches
  rw [solve_eq_finish hinitial, hrun, finish_error hf hexec]

end Rooted

/-! ### What is queued -/

/-- Among executions that begin at `s` there is one, on a frame that is new where it arrives, for
which `item` is queued. -/
def QueuedBy (c : MethodContext) (g : FlowGraph) (tasks : List Task) (s : FlowState)
    (item : WorkItem) : Prop :=
  ∃ before task after earlier s₁ s₂ f new, tasks = before ++ task :: after ∧
    c.performAll g before s = (s₁, .ok earlier) ∧ task.frame g s₁ = .ok f ∧
    c.execute g task.node f task.chain s₁ = (s₂, .ok true) ∧ item = ⟨task.node, task.chain⟩ ∧
    Arrives c.hierarchy (s₁.inputs.get? item.node item.chain.key) f new

theorem QueuedBy.cons {item : WorkItem} {changed : Bool} (hf : task.frame g s = .ok f)
    (hexec : c.execute g task.node f task.chain s = (s', .ok changed))
    (h : QueuedBy c g tasks s' item) : QueuedBy c g (task :: tasks) s item := by
  obtain ⟨before, later, after, earlier, s₁, s₂, f', new, rfl, hbefore, hrest⟩ := h
  refine ⟨task :: before, later, after, queued task changed ++ earlier, s₁, s₂, f', new, rfl, ?_,
    hrest⟩
  simp only [performAll, hf, hexec, hbefore]

theorem arrives_of_execute (hexec : c.execute g n f chain s = (s', .ok true)) :
    ∃ new, Arrives c.hierarchy (s.inputs.get? n chain.key) f new := by
  have hstep := executed_execute hexec
  generalize hr : Except.ok true = r at hstep
  cases hstep with
  | ran arrives => exact ⟨_, arrives⟩
  | absorbed => cases hr
  | clash => cases hr
  | refused => cases hr
  | broken => cases hr

theorem queuedBy_of_performAll (hall : c.performAll g tasks s = (s', .ok items))
    (hitem : item ∈ items) : QueuedBy c g tasks s item := by
  induction tasks generalizing s items with
  | nil =>
    cases hall
    cases hitem
  | cons task tasks ih =>
    obtain ⟨f, s₁, changed, more, hf, hexec, hrest, rfl⟩ := performAll_cons_ok hall
    rcases mem_append.1 hitem with hfirst | hlater
    · cases changed with
      | false => cases hfirst
      | true =>
        obtain rfl := mem_singleton.1 hfirst
        obtain ⟨new, hnew⟩ := arrives_of_execute hexec
        exact ⟨[], task, tasks, [], s, s₁, f, new, rfl, rfl, hf, hexec, rfl, hnew⟩
    · exact (ih hrest hlater).cons hf hexec

theorem queuedBy_of_visit {next : WorkItem} (hvisit : c.visit g item s = (s', .ok items))
    (hnext : next ∈ items) :
    ∃ out chain successors, leaving g item s = .ok (out, chain, successors) ∧
      QueuedBy c g (dueTasks g item out chain successors) s next := by
  rw [visit_eq] at hvisit
  split at hvisit
  · cases hvisit
  · next out chain successors hl =>
    exact ⟨out, chain, successors, hl, queuedBy_of_performAll hvisit hnext⟩

/-! ### Questions without an answer -/

/-- The hierarchy has no answer when `f` arrives at the node of `task`: in the merge with what is
stored there, or in the check of the instruction. -/
def QueryFails (c : MethodContext) (g : FlowGraph) (s : FlowState) (task : Task) (f : Frame)
    (e : InternalError) : Prop :=
  (∃ old merged, s.inputs.get? task.node task.chain.key = some old ∧
    Frame.merge c.hierarchy old f = (merged, .error (.internal e))) ∨
  ∃ new, Arrives c.hierarchy (s.inputs.get? task.node task.chain.key) f new ∧
    c.check (g.instruction task.node) new = .error (.internal e)

theorem execute_of_queryFails {e : InternalError} (h : QueryFails c g s task f e) :
    ∃ s', c.execute g task.node f task.chain s = (s', .error (.internal e)) := by
  rcases h with ⟨old, merged, hstored, hmerge⟩ | ⟨new, harrives, hcheck⟩
  · simp only [execute, hstored, hmerge, mergingInto]
    exact ⟨_, rfl⟩
  · cases harrives with
    | first hnone =>
      simp only [execute, hnone, runNode, hcheck]
      exact ⟨_, rfl⟩
    | grown hold hmerge =>
      simp only [execute, hold, hmerge, runNode, hcheck]
      exact ⟨_, rfl⟩

/-- No frame can be changed by merges for ever. -/
theorem not_always_merges (hrooted : t.Rooted) (stored arriving : Nat → Frame) :
    ¬∀ i, Frame.merge t.hierarchy (stored i) (arriving i) = (stored (i + 1), .ok true) := by
  intro hmerges
  obtain ⟨i, hi⟩ := WellFounded.not_rel_apply_succ (r := (· < ·)) fun i =>
    t.frameHeight (stored i)
  exact hi (ClassTable.frameHeight_merge hrooted (hmerges i))

/-! ### The whole -/

/-- How the data flow of a method ends. -/
structure Ends (c : MethodContext) (g : FlowGraph) : Prop where
  /-- After the first execution the loop over the queue ends, and within the bound. -/
  settles : ∃ f, c.initialFrame = .ok f ∧
    ∀ s changed, c.execute g 0 f .empty (startState g) = (s, .ok changed) →
      Settles c g [⟨0, .empty⟩] s (c.settle g (c.visitBound g) [⟨0, .empty⟩] s)
  /-- Frames are stored for the nodes of the graph and the contexts in it. -/
  places : ∀ tasks queue s, Reaches c g tasks queue s →
    ∀ n k, (s.inputs.get? n k).isSome → n < g.size ∧ k ∈ contexts g
  /-- A stored frame is not changed by merges for ever. -/
  merges : ∀ stored arriving : Nat → Frame,
    ¬∀ i, Frame.merge c.hierarchy (stored i) (arriving i) = (stored (i + 1), .ok true)
  /-- A visit queues a node for a first execution or after a change. -/
  queues : ∀ item s s' items, c.visit g item s = (s', .ok items) → ∀ next ∈ items,
    ∃ out chain successors, leaving g item s = .ok (out, chain, successors) ∧
      QueuedBy c g (dueTasks g item out chain successors) s next
  /-- A question without an answer ends data flow, with the error of the hierarchy. -/
  stops : ∀ task tasks queue s f e, Reaches c g (task :: tasks) queue s →
    task.frame g s = .ok f → QueryFails c g s task f e →
      e.Wraps c.hierarchy ∧ ∃ s', c.solve g = (s', .error (.internal e))

theorem ends_of_rooted (h : Ready c g code) (ht : c.hierarchy = t.hierarchy) (hrooted : t.Rooted) :
    Ends c g where
  settles := by
    obtain ⟨f, hf, -⟩ := initialFrame_proceeds h
    refine ⟨f, hf, fun s changed hexec => ?_⟩
    have hstart : Reaches c g [.flow 0 f .empty] [] (startState g) := .start hf
    -- The first execution has taken one place, which pays for the one node in the queue.
    have hless := ahead_execute h ht hrooted hstart rfl hexec
    have hbound := ahead_start_lt t c g
    obtain rfl := execute_start_changed hexec
    refine settles_of_reaches h ht hrooted (.perform hstart rfl hexec) ?_
    change 1 + _ ≤ _
    omega
  places _ _ _ hreaches _ _ hstored := mem_contexts_of_reaches h hreaches hstored
  merges := by
    rw [ht]
    exact not_always_merges hrooted
  queues _ _ _ _ hvisit _ hnext := queuedBy_of_visit hvisit hnext
  stops _ _ _ _ _ _ hreaches hf hfails := by
    obtain ⟨s', hexec⟩ := execute_of_queryFails hfails
    exact ⟨breaks_wraps h (.execute hreaches hf hexec),
      s', solve_of_execute_error h ht hrooted hreaches hf hexec⟩

theorem not_exitFails (hg : g.toCodeEdges.Built code c.method.handlers c.pool)
    (hreaches : Reaches c g tasks queue s) : ¬c.ExitFails n (g.instruction n) s e := by
  rintro ⟨kind, key, f, hact, hf, hcheck⟩
  have hvalues := (check_eq_ok.1 ((Stored.of_reaches hg hreaches).executed n key f hf).1).2
  simp only [checkValues, hact] at hvalues
  cases hcheck.symm.trans hvalues

/-- Data flow fails only where one of its steps does. -/
theorem breaks_of_solve (h : Ready c g code) (ht : c.hierarchy = t.hierarchy) (hrooted : t.Rooted)
    (hsolve : c.solve g = (s, .error e)) : ∃ s₀, Breaks c g s₀ e := by
  obtain ⟨f, hf, hsettles⟩ := (ends_of_rooted h ht hrooted).settles
  have hstart : Reaches c g [.flow 0 f .empty] [] (startState g) := .start hf
  rcases hexec : c.execute g 0 f .empty (startState g) with ⟨s₁, e₁ | changed⟩
  · simp only [solve, hf, hexec] at hsolve
    cases hsolve
    exact ⟨_, .execute hstart rfl hexec⟩
  · have hfirst : Reaches c g [] [⟨0, .empty⟩] s₁ := by
      have hperform := Reaches.perform hstart rfl hexec
      rw [execute_start_changed hexec] at hperform
      exact hperform
    obtain ⟨hdone, hbreaks⟩ := (hsettles s₁ changed hexec).reaches hfirst
    rcases hrun : c.settle g (c.visitBound g) [⟨0, .empty⟩] s₁ with ⟨s₂, e₂ | ⟨⟩⟩
    · simp only [solve, hf, hexec, hrun] at hsolve
      cases hsolve
      rw [hrun] at hbreaks
      exact ⟨_, hbreaks _ rfl⟩
    · simp only [solve, hf, hexec, hrun] at hsolve
      rw [hrun] at hdone
      obtain ⟨n, hfails⟩ := (scanExits_frames hsolve).2 e rfl
      exact absurd hfails (not_exitFails h.built (hdone rfl))

end MethodContext

/-- In a class table whose root class has no superclass, data flow ends for every method that passed
the checks and has a graph. -/
theorem solve_ends (t : ClassTable) (hrooted : t.Rooted) (owner : Class) (m : Method)
    (prepared : PreparedCode) (strict : Bool) (g : FlowGraph)
    (hprepared : m.prepare owner.pool = .ok prepared)
    (hg : FlowGraph.build prepared.code m.handlers owner.pool strict = .ok g) :
    MethodContext.Ends ⟨t, owner, m, prepared.type⟩ g :=
  MethodContext.ends_of_rooted (.of_build hprepared hg) rfl hrooted

/-- An endless loop that is entered with a number and comes round with a reference. -/
def forgetNumber : Method where
  name := "forgetNumber"
  descriptor := "()V"
  access := .staticBit
  maxStack := 1
  maxLocals := 1
  -- iconst_0, istore_0; aconst_null, astore_0, goto 2
  code := [0x03, 0x3b, 0x01, 0x4b, 0xa7, 0xff, 0xfe]

/-- Two of its five nodes are run again, since a merge changes the frame there. -/
theorem solve_ends_forgetNumber : plainTable.Rooted ∧ ∃ prepared g,
    forgetNumber.prepare plainClass.pool = .ok prepared ∧
    FlowGraph.build prepared.code forgetNumber.handlers plainClass.pool true = .ok g ∧
    g.size = 5 ∧
    (MethodContext.solve ⟨plainTable, plainClass, forgetNumber, prepared.type⟩ g).1.steps = 7 ∧
    MethodContext.Ends ⟨plainTable, plainClass, forgetNumber, prepared.type⟩ g := by
  have hrooted : plainTable.Rooted := by decide
  obtain ⟨prepared, hprepared, g, hg, hsize, hsteps⟩ : ∃ prepared,
      forgetNumber.prepare plainClass.pool = .ok prepared ∧
      ∃ g, FlowGraph.build prepared.code forgetNumber.handlers plainClass.pool true = .ok g ∧
      g.size = 5 ∧ (MethodContext.solve ⟨plainTable, plainClass, forgetNumber, prepared.type⟩
        g).1.steps = 7 := by decide +kernel
  exact ⟨hrooted, prepared, g, hprepared, hg, hsize, hsteps, solve_ends plainTable hrooted
    plainClass forgetNumber prepared true g hprepared hg⟩

end Bytecode
