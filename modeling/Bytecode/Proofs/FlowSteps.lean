import Bytecode.Verdict
import Bytecode.Proofs.Covering

/-!
The steps of data flow.

* `Executed`: what the execution of a node does to the stored frames, case by case;
* `Reaches`: the configurations that data flow goes through, one execution of a node at a time and
  with no bound on their number;
* `Fails`: the ways in which it ends without a result;
* `visit_eq`: a visit performs the executions that are due, one after another;
* `solve_reaches`: `solve` ends in a configuration with nothing left to do, or fails in one of
  these ways;
* `verifyTraced_flow`, `verify_error`: what a verification has to do with `solve`.

An invariant of data flow is one of `Reaches`, proved through `Executed`.
-/
namespace Bytecode

/-! ### Stored frames -/

namespace FrameTable

theorem lookup_cons_eq_ite (k k' : CallKey) (f : Frame) (row : List (CallKey × Frame)) :
    ((k', f) :: row).lookup k = if k' = k then some f else row.lookup k := by
  rw [List.lookup_cons]
  by_cases hk : k' = k
  · simp [hk]
  · have hk' : (k == k') = false := beq_eq_false_iff_ne.2 fun h => hk h.symm
    simp [hk, hk']

theorem lookup_insertRow (key k : CallKey) (f : Frame) (row : List (CallKey × Frame)) :
    (insertRow key f row).lookup k = if key = k then some f else row.lookup k := by
  induction row with
  | nil => rw [insertRow, lookup_cons_eq_ite]
  | cons entry rest ih =>
    obtain ⟨k', old⟩ := entry
    rw [insertRow]
    split
    · next hk' =>
      subst hk'
      by_cases hk : k' = k <;> simp [lookup_cons_eq_ite, hk]
    · split
      · rw [lookup_cons_eq_ite]
      · next hne _ =>
        rw [lookup_cons_eq_ite, lookup_cons_eq_ite, ih]
        by_cases hk : key = k
        · subst hk
          simp [hne]
        · simp [hk]

@[simp] theorem rows_size_insert (t : FrameTable) (n : Nat) (key : CallKey) (f : Frame) :
    (t.insert n key f).rows.size = t.rows.size := by
  simp [insert]

@[simp] theorem get?_empty (nodes n : Nat) (k : CallKey) : (empty nodes).get? n k = none := by
  by_cases hn : n < nodes <;> simp [get?, row, empty, Array.getD_eq_getD_getElem?, hn]

theorem get?_insert {t : FrameTable} {n : Nat} (hn : n < t.rows.size) (key : CallKey) (f : Frame)
    (m : Nat) (k : CallKey) :
    (t.insert n key f).get? m k = if n = m ∧ key = k then some f else t.get? m k := by
  simp only [get?, row, insert, Array.getD_eq_getD_getElem?, Array.getElem?_modify]
  by_cases hm : n = m
  · subst hm
    simp [hn, lookup_insertRow]
  · simp [hm]

end FrameTable

namespace MethodContext

variable {c : MethodContext} {g : FlowGraph}

/-! ### One node -/

/-- The frame that a node is run on when `f` arrives there: `f` itself if no frame is stored, or
else its merge into the stored one if that is new. -/
inductive Arrives (h : Hierarchy) (stored : Option Frame) (f : Frame) : Frame → Prop
  | first : stored = none → Arrives h stored f f
  | grown {old merged : Frame} : stored = some old → Frame.merge h old f = (merged, .ok true) →
      Arrives h stored f merged

/-- What the execution of node `n` on frame `f` under `key` does to the stored frames, and its
outcome. -/
inductive Executed (c : MethodContext) (g : FlowGraph) (n : Nat) (f : Frame) (key : CallKey)
    (s s' : FlowState) : Except Failure Bool → Prop
  /-- The stored frame says all that `f` says. -/
  | absorbed {old : Frame} (stored : s.inputs.get? n key = some old)
      (merge : Frame.merge c.hierarchy old f = (old, .ok false))
      (inputs : s'.inputs = s.inputs) (outputs : s'.outputs = s.outputs) :
      Executed c g n f key s s' (.ok false)
  /-- The frames cannot be merged; what was merged is stored. -/
  | clash {old merged : Frame} {e : Failure} (stored : s.inputs.get? n key = some old)
      (merge : Frame.merge c.hierarchy old f = (merged, .error e))
      (inputs : s'.inputs = s.inputs.insert n key merged) (outputs : s'.outputs = s.outputs) :
      Executed c g n f key s s' (.error (mergingInto (g.instruction n) e))
  /-- The instruction demands more. -/
  | refused {new : Frame} {e : Failure} (arrives : Arrives c.hierarchy (s.inputs.get? n key) f new)
      (check : c.check (g.instruction n) new = .error e)
      (inputs : s'.inputs = s.inputs.insert n key new) (outputs : s'.outputs = s.outputs) :
      Executed c g n f key s s' (.error e)
  /-- The instruction cannot be run. -/
  | broken {new : Frame} {e : InternalError}
      (arrives : Arrives c.hierarchy (s.inputs.get? n key) f new)
      (check : c.check (g.instruction n) new = .ok ())
      (run : c.run (g.instruction n) new = .error e)
      (inputs : s'.inputs = s.inputs.insert n key new) (outputs : s'.outputs = s.outputs) :
      Executed c g n f key s s' (.error (.internal e))
  /-- The instruction was run. -/
  | ran {new out : Frame} (arrives : Arrives c.hierarchy (s.inputs.get? n key) f new)
      (check : c.check (g.instruction n) new = .ok ())
      (run : c.run (g.instruction n) new = .ok out)
      (inputs : s'.inputs = s.inputs.insert n key new)
      (outputs : s'.outputs = s.outputs.insert n key out) :
      Executed c g n f key s s' (.ok (!(s.outputs.get? n key).any (·.same out)))

variable {n : Nat} {f : Frame} {s s' : FlowState} {queue : List WorkItem}
  {r : Except Failure (List WorkItem)} {ins : Instruction}

theorem executed_runNode {new : Frame} {chain : CallChain}
    (h : Arrives c.hierarchy (s.inputs.get? n chain.key) f new) :
    Executed c g n f chain.key s (c.runNode g n new chain s).1 (c.runNode g n new chain s).2 := by
  unfold runNode
  simp only
  split
  · next he => exact .refused h he rfl rfl
  · next hc =>
    split
    · next he => exact .broken h hc he rfl rfl
    · next hr => exact .ran h hc hr rfl rfl

/-- Each execution of a node is one of the five cases. -/
theorem executed_execute {c : MethodContext} {g : FlowGraph} {n : Nat} {f : Frame}
    {chain : CallChain} {s s' : FlowState} {r : Except Failure Bool}
    (h : c.execute g n f chain s = (s', r)) : Executed c g n f chain.key s s' r := by
  obtain rfl : _ = s' := congrArg Prod.fst h
  obtain rfl : _ = r := congrArg Prod.snd h
  unfold execute
  simp only
  split
  · next hnone => exact executed_runNode (s := { s with last := _ }) (.first hnone)
  · next old hsome =>
    split
    · next merged e hm => exact .clash hsome hm rfl rfl
    · next merged hm =>
      cases Frame.merge_unchanged hm
      exact .absorbed hsome hm rfl rfl
    · next merged hm => exact executed_runNode (s := { s with last := _ }) (.grown hsome hm)

/-! ### One execution after another -/

/-- An execution that is due during a visit: a successor with the frame it is given, or a handler
that guards the node `source`. -/
inductive Task where
  | flow (node : Nat) (frame : Frame) (chain : CallChain)
  | handle (guard : Guard) (source : Nat) (key : CallKey) (out : Frame)

namespace Task

/-- The node that is executed. -/
def node : Task → Nat
  | .flow node _ _ => node
  | .handle guard _ _ _ => guard.entry

/-- The chain that leads there. -/
def chain : Task → CallChain
  | .flow _ _ chain => chain
  | .handle _ _ _ _ => .empty

/-- The frame that arrives there. -/
def frame (g : FlowGraph) (s : FlowState) : Task → Except Failure Frame
  | .flow _ frame _ => .ok frame
  | .handle guard source key out =>
    if out.stack.max < 1 then
      .error (.rejected
        (.handlerStack (g.instruction source) (g.instruction guard.entry).pos))
    else known (handlerFrame guard out (s.inputs.get? source key))

end Task

/-- What is queued after an execution. -/
def queued (task : Task) (changed : Bool) : List WorkItem :=
  if changed then [⟨task.node, task.chain⟩] else []

/-- The executions that the visit of a node makes due. -/
def dueTasks (g : FlowGraph) (item : WorkItem) (out : Frame) (chain : CallChain)
    (successors : List Nat) : List Task :=
  successors.map (.flow · out chain) ++
    (g.guardsOf item.node).map (.handle · item.node item.chain.key out)

/-- The executions still due, the queue and the state at each moment of data flow. -/
inductive Reaches (c : MethodContext) (g : FlowGraph) :
    List Task → List WorkItem → FlowState → Prop
  | start {f : Frame} (initial : c.initialFrame = .ok f) :
      Reaches c g [.flow 0 f .empty] [] (startState g)
  | visit {item : WorkItem} {queue : List WorkItem} {s : FlowState} {out : Frame}
      {chain : CallChain} {successors : List Nat} (reaches : Reaches c g [] (item :: queue) s)
      (leaves : leaving g item s = .ok (out, chain, successors)) :
      Reaches c g (dueTasks g item out chain successors) queue s
  | perform {task : Task} {tasks : List Task} {queue : List WorkItem} {s s' : FlowState}
      {f : Frame} {changed : Bool} (reaches : Reaches c g (task :: tasks) queue s)
      (frame : task.frame g s = .ok f)
      (execute : c.execute g task.node f task.chain s = (s', .ok changed)) :
      Reaches c g tasks (queue ++ queued task changed) s'

/-- The failures of a step of data flow, each with the state it leaves. -/
inductive Breaks (c : MethodContext) (g : FlowGraph) : FlowState → Failure → Prop
  | initial {e : InternalError} (initial : c.initialFrame = .error e) :
      Breaks c g (startState g) (.internal e)
  | leaving {item : WorkItem} {queue : List WorkItem} {s : FlowState} {e : InternalError}
      (reaches : Reaches c g [] (item :: queue) s) (leaves : leaving g item s = .error e) :
      Breaks c g s (.internal e)
  | frame {task : Task} {tasks : List Task} {queue : List WorkItem} {s : FlowState} {e : Failure}
      (reaches : Reaches c g (task :: tasks) queue s) (frame : task.frame g s = .error e) :
      Breaks c g s e
  | execute {task : Task} {tasks : List Task} {queue : List WorkItem} {s s' : FlowState}
      {f : Frame} {e : Failure} (reaches : Reaches c g (task :: tasks) queue s)
      (frame : task.frame g s = .ok f)
      (execute : c.execute g task.node f task.chain s = (s', .error e)) : Breaks c g s' e

/-- The failures of data flow, each with the state it leaves. -/
inductive Fails (c : MethodContext) (g : FlowGraph) : FlowState → Failure → Prop
  | running {s : FlowState} {e : Failure} (breaks : Breaks c g s e) : Fails c g s e
  | unsettled {queue : List WorkItem} {s : FlowState} (reaches : Reaches c g [] queue s) :
      Fails c g s (.internal .unsettled)
  | exit {s : FlowState} {ins : Instruction} {kind : Kind} {f : Frame} {e : Failure}
      (reaches : Reaches c g [] [] s) (check : c.checkReturn ins (some kind) f = .error e) :
      Fails c g s e

/-- Both tables are the same. -/
def SameFrames (s s' : FlowState) : Prop :=
  s.inputs = s'.inputs ∧ s.outputs = s'.outputs

/-! ### Visits -/

/-- Performs the executions that are due one after another, and gives what has to be queued. -/
def performAll (c : MethodContext) (g : FlowGraph) :
    List Task → FlowState → FlowStep (List WorkItem)
  | [], s => (s, .ok [])
  | task :: tasks, s =>
    match task.frame g s with
    | .error e => (s, .error e)
    | .ok f =>
      match c.execute g task.node f task.chain s with
      | (s, .error e) => (s, .error e)
      | (s, .ok changed) =>
        match c.performAll g tasks s with
        | (s, .error e) => (s, .error e)
        | (s, .ok items) => (s, .ok (queued task changed ++ items))

variable {tasks : List Task}

theorem performAll_cons_ok {task : Task} {items : List WorkItem}
    (h : c.performAll g (task :: tasks) s = (s', .ok items)) :
    ∃ f s₁ changed more, task.frame g s = .ok f ∧
      c.execute g task.node f task.chain s = (s₁, .ok changed) ∧
      c.performAll g tasks s₁ = (s', .ok more) ∧ items = queued task changed ++ more := by
  rw [performAll] at h
  split at h
  · cases h
  · next f hf =>
    split at h
    · cases h
    · next s₁ changed hexec =>
      split at h
      · cases h
      · next more hrest =>
        cases h
        exact ⟨f, s₁, changed, more, hf, hexec, hrest, rfl⟩

theorem performAll_append (tasks tasks' : List Task) (s : FlowState) :
    c.performAll g (tasks ++ tasks') s =
      match c.performAll g tasks s with
      | (s, .error e) => (s, .error e)
      | (s, .ok items) =>
        match c.performAll g tasks' s with
        | (s, .error e) => (s, .error e)
        | (s, .ok more) => (s, .ok (items ++ more)) := by
  induction tasks generalizing s with
  | nil =>
    simp only [List.nil_append, performAll]
    rcases c.performAll g tasks' s with ⟨s', _ | more⟩ <;> rfl
  | cons task tasks ih =>
    simp only [List.cons_append, performAll]
    cases task.frame g s with
    | error => rfl
    | ok f =>
      dsimp only
      rcases c.execute g task.node f task.chain s with ⟨s₁, _ | changed⟩
      · rfl
      · simp only [ih]
        rcases c.performAll g tasks s₁ with ⟨s₂, _ | items⟩
        · rfl
        · dsimp only
          rcases c.performAll g tasks' s₂ with ⟨s₃, _ | more⟩
          · rfl
          · simp

theorem executeAll_eq (f : Frame) (chain : CallChain) (s : FlowState) (ns : List Nat) :
    c.executeAll g f chain s ns = c.performAll g (ns.map (.flow · f chain)) s := by
  induction ns generalizing s with
  | nil => rfl
  | cons n ns ih =>
    simp only [executeAll, List.map_cons, performAll, Task.frame, Task.node, Task.chain]
    rcases c.execute g n f chain s with ⟨s₁, _ | changed⟩
    · rfl
    · simp only [ih]
      rcases c.performAll g (ns.map (.flow · f chain)) s₁ with ⟨s₂, _ | items⟩
      · rfl
      · cases changed <;> rfl

theorem executeHandlers_eq (n : Nat) (key : CallKey) (out : Frame) (s : FlowState)
    (guards : List Guard) : c.executeHandlers g n key out s guards =
      c.performAll g (guards.map (.handle · n key out)) s := by
  induction guards generalizing s with
  | nil => rfl
  | cons guard guards ih =>
    simp only [executeHandlers, List.map_cons, performAll, Task.frame, Task.node, Task.chain]
    by_cases hroom : out.stack.max < 1
    · rw [if_pos hroom, if_pos hroom]
    · rw [if_neg hroom, if_neg hroom]
      cases handlerFrame guard out (s.inputs.get? n key) with
      | error e => rfl
      | ok f =>
        simp only [known, mapError_ok]
        rcases c.execute g guard.entry f .empty s with ⟨s₁, _ | changed⟩
        · rfl
        · simp only [ih]
          rcases c.performAll g (guards.map (.handle · n key out)) s₁ with ⟨s₂, _ | items⟩
          · rfl
          · cases changed <;> rfl

theorem visit_eq (item : WorkItem) (s : FlowState) : c.visit g item s =
    match leaving g item s with
    | .error e => (s, .error (.internal e))
    | .ok (out, chain, successors) => c.performAll g (dueTasks g item out chain successors) s := by
  unfold visit
  rcases leaving g item s with _ | ⟨out, chain, successors⟩
  · rfl
  · simp only [dueTasks, performAll_append, ← executeAll_eq]
    rcases c.executeAll g out chain s successors with ⟨s₁, _ | items⟩
    · rfl
    · have hhandlers := executeHandlers_eq (c := c) (g := g) item.node item.chain.key out s₁
        (g.guardsOf item.node)
      rcases hall : c.performAll g
        ((g.guardsOf item.node).map (.handle · item.node item.chain.key out)) s₁
        with ⟨s₂, _ | more⟩
      all_goals
        rw [hall] at hhandlers
        simp only [hhandlers, hall]

theorem performAll_reaches (hs : Reaches c g tasks queue s) (h : c.performAll g tasks s = (s', r)) :
    (∀ items, r = .ok items → Reaches c g [] (queue ++ items) s') ∧
      ∀ e, r = .error e → Breaks c g s' e := by
  induction tasks generalizing queue s r with
  | nil =>
    cases h
    simpa using hs
  | cons task tasks ih =>
    rw [performAll] at h
    split at h
    · next hf =>
      cases h
      refine ⟨by simp, ?_⟩
      rintro e ⟨⟩
      exact .frame hs hf
    · next f hf =>
      split at h
      · next he =>
        cases h
        refine ⟨by simp, ?_⟩
        rintro e ⟨⟩
        exact .execute hs hf he
      · next s₁ changed hok =>
        have hs₁ := Reaches.perform hs hf hok
        split at h
        · next hrest =>
          cases h
          exact ⟨by simp, (ih hs₁ hrest).2⟩
        · next items hrest =>
          cases h
          refine ⟨?_, by simp⟩
          rintro _ ⟨⟩
          rw [← List.append_assoc]
          exact (ih hs₁ hrest).1 items rfl

theorem visit_reaches {item : WorkItem} (hs : Reaches c g [] (item :: queue) s)
    (h : c.visit g item s = (s', r)) :
    (∀ items, r = .ok items → Reaches c g [] (queue ++ items) s') ∧
      ∀ e, r = .error e → Breaks c g s' e := by
  rw [visit_eq] at h
  split at h
  · next e he =>
    cases h
    refine ⟨by simp, ?_⟩
    rintro _ ⟨⟩
    exact .leaving hs he
  · next hl => exact performAll_reaches (.visit hs hl) h

theorem settle_reaches {fuel : Nat} {r : Except Failure Unit} (hs : Reaches c g [] queue s)
    (h : c.settle g fuel queue s = (s', r)) :
    (r = .ok () → Reaches c g [] [] s') ∧ ∀ e, r = .error e →
      Breaks c g s' e ∨ e = .internal .unsettled ∧ ∃ queue, Reaches c g [] queue s' := by
  induction fuel generalizing queue s with
  | zero =>
    cases queue with
    | nil =>
      cases h
      exact ⟨fun _ => hs, by simp⟩
    | cons item queue =>
      cases h
      refine ⟨by simp, ?_⟩
      rintro e ⟨⟩
      exact .inr ⟨rfl, _, hs⟩
  | succ fuel ih =>
    cases queue with
    | nil =>
      cases h
      exact ⟨fun _ => hs, by simp⟩
    | cons item queue =>
      rw [settle] at h
      split at h
      · next hv =>
        cases h
        refine ⟨by simp, ?_⟩
        rintro _ ⟨⟩
        exact .inl ((visit_reaches hs hv).2 _ rfl)
      · next items hv => exact ih ((visit_reaches hs hv).1 items rfl) h

/-! ### The exits, and the whole -/

/-- A check of what is stored on entry of a return fails. -/
def ExitFails (c : MethodContext) (n : Nat) (ins : Instruction) (s : FlowState) (e : Failure) :
    Prop :=
  ∃ kind key f, ins.action = .leave (some kind) ∧ s.inputs.get? n key = some f ∧
    c.checkReturn ins (some kind) f = .error e

theorem recheckReturn_frames {key : CallKey} {r : Except Failure Unit}
    (h : c.recheckReturn n key ins s = (s', r)) :
    SameFrames s' s ∧ ∀ e, r = .error e → c.ExitFails n ins s e := by
  unfold recheckReturn at h
  split at h
  · next kind f hact hf =>
    cases h
    exact ⟨⟨rfl, rfl⟩, fun e he => ⟨kind, key, f, hact, hf, he⟩⟩
  · cases h
    exact ⟨⟨rfl, rfl⟩, by simp⟩

theorem scanExit_frames {row : List (CallKey × Frame)} {r : Except Failure Unit}
    (h : c.scanExit n ins s row = (s', r)) :
    SameFrames s' s ∧ ∀ e, r = .error e → c.ExitFails n ins s e := by
  induction row generalizing s with
  | nil =>
    cases h
    exact ⟨⟨rfl, rfl⟩, by simp⟩
  | cons entry row ih =>
    obtain ⟨key, out⟩ := entry
    rw [scanExit] at h
    split at h
    · next hr =>
      cases h
      exact ⟨(recheckReturn_frames hr).1, (recheckReturn_frames hr).2⟩
    · next hr =>
      obtain ⟨hin, hout⟩ := (recheckReturn_frames hr).1
      obtain ⟨⟨hin', hout'⟩, he⟩ := ih h
      refine ⟨⟨hin'.trans hin, hout'.trans hout⟩, fun e hr => ?_⟩
      have hfails := he e hr
      rw [ExitFails, hin] at hfails
      exact hfails

theorem scanExits_frames {ns : List Nat} {r : Except Failure Unit}
    (h : c.scanExits g s ns = (s', r)) :
    SameFrames s' s ∧ ∀ e, r = .error e → ∃ n, c.ExitFails n (g.instruction n) s e := by
  induction ns generalizing s with
  | nil =>
    cases h
    exact ⟨⟨rfl, rfl⟩, by simp⟩
  | cons n ns ih =>
    rw [scanExits] at h
    split at h
    · split at h
      · next hr =>
        cases h
        exact ⟨(scanExit_frames hr).1, fun e he => ⟨_, (scanExit_frames hr).2 e he⟩⟩
      · next hr =>
        obtain ⟨hin, hout⟩ := (scanExit_frames hr).1
        obtain ⟨⟨hin', hout'⟩, he⟩ := ih h
        refine ⟨⟨hin'.trans hin, hout'.trans hout⟩, fun e hr => ?_⟩
        obtain ⟨n, hfails⟩ := he e hr
        rw [ExitFails, hin] at hfails
        exact ⟨n, hfails⟩
    · exact ih h

theorem execute_start_changed {changed : Bool}
    (h : c.execute g 0 f .empty (startState g) = (s, .ok changed)) : changed = true := by
  have he := executed_execute h
  cases he with
  | absorbed stored => simp [startState] at stored
  | ran => simp [startState]

/-- Data flow ends with nothing left to do, or it fails. The exits change no frame. -/
theorem solve_reaches {r : Except Failure Unit} (h : c.solve g = (s, r)) :
    (r = .ok () → ∃ s₀, Reaches c g [] [] s₀ ∧ SameFrames s s₀) ∧
      ∀ e, r = .error e → ∃ s₀, Fails c g s₀ e ∧ SameFrames s s₀ := by
  unfold solve at h
  split at h
  · next e he =>
    cases h
    refine ⟨by simp, ?_⟩
    rintro _ ⟨⟩
    exact ⟨_, .running (.initial he), rfl, rfl⟩
  · next f hf =>
    have hs := Reaches.start (g := g) hf
    split at h
    · next e he =>
      cases h
      refine ⟨by simp, ?_⟩
      rintro _ ⟨⟩
      exact ⟨_, .running (.execute hs rfl he), rfl, rfl⟩
    · next s₁ changed hok =>
      have hs₁ := Reaches.perform hs rfl hok
      rw [execute_start_changed hok] at hs₁
      split at h
      · next e he =>
        cases h
        refine ⟨by simp, ?_⟩
        rintro _ ⟨⟩
        rcases (settle_reaches hs₁ he).2 e rfl with hbreaks | ⟨rfl, queue, hreaches⟩
        · exact ⟨_, .running hbreaks, rfl, rfl⟩
        · exact ⟨_, .unsettled hreaches, rfl, rfl⟩
      · next s₂ hsettle =>
        have hs₂ := (settle_reaches hs₁ hsettle).1 rfl
        obtain ⟨hsame, hfail⟩ := scanExits_frames h
        refine ⟨fun _ => ⟨s₂, hs₂, hsame⟩, fun e he => ?_⟩
        obtain ⟨n, kind, key, f', -, -, hcheck⟩ := hfail e he
        exact ⟨s₂, .exit hs₂ hcheck, hsame⟩

end MethodContext

/-! ### Verifications -/

section Verification

variable {h : Hierarchy} {options : VerifyOptions} {runId : String} {owner : Class} {m : Method}

/-- The frames of a verification are those that data flow ends with, and the method is accepted when
it ends without a failure. -/
theorem verifyTraced_flow {s : FlowState}
    (hs : (verifyTraced h options runId owner m).flow = some s) :
    ∃ prepared g r, m.prepare owner.pool = .ok prepared ∧
      FlowGraph.build prepared.code m.handlers owner.pool options.strict = .ok g ∧
      MethodContext.solve ⟨h, owner, m, prepared.type⟩ g = (s, r) ∧
      ((∃ verdict, (verifyTraced h options runId owner m).verdict = .ok verdict ∧
        verdict.status = .accepted) → r = .ok ()) := by
  unfold verifyTraced at hs ⊢
  simp only at hs ⊢
  split at hs
  · cases hs
  · next hcode =>
    rw [if_neg hcode]
    split at hs
    · cases hs
    · next prepared hprepared =>
      simp only [hprepared]
      split at hs
      · cases hs
      · cases hs
      · next g hg =>
        rcases hsolve : MethodContext.solve ⟨h, owner, m, prepared.type⟩ g with ⟨s', r⟩
        simp only [hsolve] at hs ⊢
        refine ⟨prepared, g, r, rfl, hg, ?_⟩
        split at hs
        · cases hs
          exact ⟨hsolve, fun _ => rfl⟩
        · cases hs
          exact ⟨hsolve, by simp⟩
        · cases hs
          refine ⟨hsolve, ?_⟩
          rintro ⟨verdict, ⟨⟩, haccepted⟩
          cases haccepted

theorem verify_error {e : InternalError} (he : verify h options runId owner m = .error e) :
    ∃ prepared, m.prepare owner.pool = .ok prepared ∧
      (FlowGraph.build prepared.code m.handlers owner.pool options.strict = .error (.internal e) ∨
      ∃ g s, FlowGraph.build prepared.code m.handlers owner.pool options.strict = .ok g ∧
        MethodContext.solve ⟨h, owner, m, prepared.type⟩ g = (s, .error (.internal e))) := by
  unfold verify verifyTraced at he
  simp only at he
  split at he
  · cases he
  · split at he
    · cases he
    · next prepared hprepared =>
      refine ⟨prepared, hprepared, ?_⟩
      split at he
      · next hg =>
        cases he
        exact .inl hg
      · cases he
      · next g hg =>
        rcases hsolve : MethodContext.solve ⟨h, owner, m, prepared.type⟩ g with ⟨s, r⟩
        simp only [hsolve] at he
        split at he
        · cases he
        · cases he
          exact .inr ⟨g, s, hg, hsolve⟩
        · cases he

end Verification

end Bytecode
