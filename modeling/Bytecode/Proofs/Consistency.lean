import Bytecode.Proofs.ErrorSources
import Bytecode.Proofs.FixedPoint
import Bytecode.Proofs.Limits
import Bytecode.Proofs.Subroutines

/-!
Data flow keeps its own promises.

* `verify_error_wraps`: a verification that gives no verdict passes on an error of the hierarchy;
* `subroutine_contexts`: frames are stored under calls of the subroutine they are in, and returns go
  on after the innermost open call.
-/
namespace Bytecode

namespace MethodContext

variable {c : MethodContext} {g : FlowGraph} {code : Array Instruction} {s : FlowState}
  {queue : List WorkItem} {tasks : List Task} {item : WorkItem}

/-! ### Failures -/

variable {N : String → Prop}

variable {task : Task} {e : Failure}

theorem frame_fails (hgiven : c.Fits task.given) : FailsOver c N code (task.frame g s) := by
  cases task with
  | flow => exact .ok _
  | handle guard source key out =>
    refine .ite (fun _ => .rejected _) fun hmax => ?_
    obtain ⟨f, hf, -⟩ := hgiven.handler guard (s.inputs.get? source key) hmax
    rw [show handlerFrame guard out _ = _ from hf]
    exact .ok f

theorem Concerns.mergingInto (he : e.Concerns c N code) (ins : Instruction) :
    (mergingInto ins e).Concerns c N code := by
  unfold MethodContext.mergingInto
  split
  · trivial
  · exact he

theorem execute_concerns (h : Ready c g code) (hc : c.Over N)
    (hover : FrameInvariant c g (Frame.Over N)) {s' : FlowState} {f : Frame}
    (hreaches : Reaches c g (task :: tasks) queue s) (hframe : task.frame g s = .ok f)
    (hexecute : c.execute g task.node f task.chain s = (s', .error e)) : e.Concerns c N code := by
  have hfits := fits_invariant h
  have hstored := Stored.of_reaches h.built hreaches
  obtain ⟨hin, -, hgiven⟩ := hfits.of_reaches h.built hreaches
  obtain ⟨hin', -, hgiven'⟩ := hover.of_reaches h.built hreaches
  have hguarded := hstored.guarded task List.mem_cons_self
  have hf := hfits.of_frame hguarded (hgiven _ List.mem_cons_self) hframe
  have hf' := hover.of_frame hguarded (hgiven' _ List.mem_cons_self) hframe
  have hn := hstored.inRange task List.mem_cons_self
  have hstep := executed_execute hexecute
  cases hstep with
  | clash stored merge =>
    refine Concerns.mergingInto (Frame.merge_fails (hin' _ _ _ stored) hf' ?_ merge) _
    rw [(hin _ _ _ stored).locals, hf.locals]
  | refused arrives check =>
    have hnew := hover.of_arrives (fun old => hin' _ _ old) hf' arrives
    exact check_fails hc hnew (h.checked hn) (h.instruction_mem hn) (h.action_ne_wide hn) _ check
  | broken arrives check run =>
    have hnew := hfits.of_arrives (fun old => hin _ _ old) hf arrives
    obtain ⟨out, hout, -⟩ := run_proceeds hnew (h.checked hn) check
    cases run.symm.trans hout

/-- The steps of data flow over a prepared method fail with rejections and errors of the hierarchy,
about classes that the frames or the method name. -/
theorem breaks_concerns (h : Ready c g code) (hc : c.Over N)
    (hover : FrameInvariant c g (Frame.Over N)) (he : Breaks c g s e) : e.Concerns c N code := by
  cases he with
  | initial hinitial =>
    obtain ⟨f, hf, -⟩ := initialFrame_proceeds h
    cases hinitial.symm.trans hf
  | leaving hreaches hleaves =>
    obtain ⟨calls, out, hleaving⟩ := (Tracked.of_reaches h.built h.prepared.laid h.partitioned
      hreaches).leaving h.partitioned (.of_reaches h.built hreaches)
    obtain ⟨chain, successors, hgoes, -⟩ := hleaving.goes h.built h.prepared.laid h.partitioned
    cases hleaves.symm.trans hgoes
  | frame hreaches hframe =>
    obtain ⟨-, -, hgiven⟩ := (fits_invariant h).of_reaches h.built hreaches
    exact frame_fails (hgiven _ List.mem_cons_self) _ hframe
  | execute hreaches hframe hexecute => exact execute_concerns h hc hover hreaches hframe hexecute

theorem over_true : c.Over (fun _ => True) where
  owner := trivial
  receiver _ _ := trivial
  pool := ⟨fun _ _ _ _ => trivial, fun _ _ _ _ => trivial,
    fun _ _ => ⟨fun _ _ _ _ => trivial, fun _ _ _ _ => trivial⟩⟩
  type := ⟨fun _ _ _ _ => trivial, fun _ _ _ _ => trivial⟩
  core _ _ := trivial

theorem frame_over_true (f : Frame) : f.Over (fun _ => True) :=
  fun _ _ _ _ => trivial

theorem breaks_wraps (h : Ready c g code) (he : Breaks c g s e) : e.Wraps c.hierarchy := by
  have hover : FrameInvariant c g (Frame.Over fun _ => True) :=
    ⟨fun _ => frame_over_true _, fun _ _ _ => frame_over_true _,
      fun _ _ _ _ => frame_over_true _, fun _ _ _ => frame_over_true _⟩
  exact (breaks_concerns h over_true hover he).wraps

/-- The failures of data flow over a prepared method are rejections and errors of the hierarchy, and
that there were too many visits. -/
theorem fails_wraps (h : Ready c g code) (he : Fails c g s e) :
    e = .internal .unsettled ∨ e.Wraps c.hierarchy := by
  cases he with
  | running hbreaks => exact .inr (breaks_wraps h hbreaks)
  | unsettled => exact .inl rfl
  | exit hreaches hcheck =>
    have hconcerns : e.Concerns c (fun _ => True) code :=
      checkReturn_fails over_true (frame_over_true _) _ _ hcheck
    exact .inr hconcerns.wraps

/-! ### Contexts -/

/-- How stored frames lie in the regions of the graph: those of a subroutine are stored under the
calls that lead to it, and only where it begins is a return address on the stack. -/
structure InRegions (g : FlowGraph) (s : FlowState) : Prop where
  owned : ∀ {n k}, (s.inputs.get? n k).isSome ∨ (s.outputs.get? n k).isSome →
    ∃ r, g.ownerOf n = some r ∧ (k = .topLevel ↔ r = 0) ∧
      (r ≠ 0 → ∃ site leader, k = .call site ∧ (g.instruction site).op.isJsr = true ∧
        leader ∈ g.successorsOf site ∧ (g.region r).leader = some leader)
  addresses : ∀ {n k f x}, s.inputs.get? n k = some f → .returnAddress x ∈ f.stack.values →
    ∃ r, (g.region r).leader = some n

theorem InRegions.of_sameFrames {s₀ : FlowState} (h : InRegions g s₀) (hsame : SameFrames s s₀) :
    InRegions g s := by
  obtain ⟨hinputs, houtputs⟩ := hsame
  refine ⟨?_, ?_⟩
  · rw [hinputs, houtputs]
    exact h.owned
  · rw [hinputs]
    exact h.addresses

/-- A return that is due goes on after the innermost open call of its chain. -/
def ReturnsTo (g : FlowGraph) (s : FlowState) (item : WorkItem) : Prop :=
  ∃ out site outer chain, s.outputs.get? item.node item.chain.key = some out ∧
    item.chain.openCalls = site :: outer ∧
    item.chain.extend item.node (g.instruction item.node).op.isJsr
      (g.instruction item.node).op.isRet = .ok chain ∧
    chain.nodes = item.node :: item.chain.nodes ∧ chain.openCalls = outer ∧
    returnTarget g item.node item.chain out = .ok (site + 1) ∧
    (g.instruction (site + 1)).pos = (g.instruction site).next

theorem Tracked.inRegions (hg : g.Partitioned) (h : Tracked g tasks queue s)
    (hentered : ∀ n k out, s.outputs.get? n k = some out → ∃ f, s.inputs.get? n k = some f) :
    InRegions g s where
  owned {n k} hstored := by
    obtain ⟨f, hf⟩ : ∃ f, s.inputs.get? n k = some f := by
      rcases hstored with hin | hout
      · exact Option.isSome_iff_exists.1 hin
      · obtain ⟨out, hout⟩ := Option.isSome_iff_exists.1 hout
        exact hentered n k out hout
    obtain ⟨calls, rfl, hstanding⟩ := h.stored n k f hf
    cases hstanding.located with
    | top owner => exact ⟨0, owner, by simp [keyOf], fun hne => absurd rfl hne⟩
    | @under outer site leader r _ _ jsr target enters owner =>
      have hne : r ≠ 0 := by
        rintro rfl
        rw [hg.top] at enters
        cases enters
      exact ⟨r, owner, by simp [keyOf, hne], fun _ => ⟨site, leader, rfl, jsr, target, enters⟩⟩
  addresses {n k f x} hf hx := by
    obtain ⟨calls, rfl, hstanding⟩ := h.stored n k f hf
    cases hstanding.fits with
    | begins leader => exact ⟨_, leader⟩
    | inside noLeader clear => cases clear _ hx

theorem entered_of_fails (hg : g.toCodeEdges.Built code c.method.handlers c.pool)
    (h : Fails c g s e) {n : Nat} {k : CallKey} {out : Frame}
    (hout : s.outputs.get? n k = some out) : ∃ f, s.inputs.get? n k = some f := by
  cases h with
  | unsettled hreaches => exact (Stored.of_reaches hg hreaches).entered n k out hout
  | exit hreaches => exact (Stored.of_reaches hg hreaches).entered n k out hout
  | running hbreaks =>
    cases hbreaks with
    | initial => simp [startState] at hout
    | leaving hreaches => exact (Stored.of_reaches hg hreaches).entered n k out hout
    | frame hreaches => exact (Stored.of_reaches hg hreaches).entered n k out hout
    | @execute task tasks queue before _ f e hreaches _ hexecute =>
      have hstored := Stored.of_reaches hg hreaches
      have hstep := executed_execute hexecute
      -- A failed execution stores a frame on entry and none on exit.
      have hgrow : ∀ {new}, s.inputs = before.inputs.insert task.node task.chain.key new →
          s.outputs = before.outputs → ∃ f, s.inputs.get? n k = some f := by
        intro new hinputs houtputs
        rw [hstored.get?_inputs hinputs]
        rw [houtputs] at hout
        split
        · exact ⟨new, rfl⟩
        · exact hstored.entered n k out hout
      cases hstep with
      | clash _ _ inputs outputs => exact hgrow inputs outputs
      | refused _ _ inputs outputs => exact hgrow inputs outputs
      | broken _ _ _ inputs outputs => exact hgrow inputs outputs

theorem inRegions_of_reaches (h : Ready c g code) (hreaches : Reaches c g tasks queue s) :
    InRegions g s :=
  (Tracked.of_reaches h.built h.prepared.laid h.partitioned hreaches).inRegions h.partitioned
    (Stored.of_reaches h.built hreaches).entered

/-- Whatever the outcome of data flow, what it leaves lies in the regions. -/
theorem inRegions_of_solve (h : Ready c g code) {r : Except Failure Unit}
    (hsolve : c.solve g = (s, r)) : InRegions g s := by
  cases r with
  | ok =>
    obtain ⟨s₀, hreaches, hsame⟩ := (solve_reaches hsolve).1 rfl
    exact (inRegions_of_reaches h hreaches).of_sameFrames hsame
  | error e =>
    obtain ⟨s₀, hfails, hsame⟩ := (solve_reaches hsolve).2 e rfl
    obtain ⟨tasks, queue, htracked⟩ :=
      Tracked.of_fails h.built h.prepared.laid h.partitioned hfails
    exact (htracked.inRegions h.partitioned fun _ _ _ =>
      entered_of_fails h.built hfails).of_sameFrames hsame

theorem returnsTo_of_reaches (h : Ready c g code) (hreaches : Reaches c g [] (item :: queue) s)
    (hret : (g.instruction item.node).op.isRet = true) : ReturnsTo g s item := by
  obtain ⟨calls, out, hleaving⟩ := (Tracked.of_reaches h.built h.prepared.laid h.partitioned
    hreaches).leaving h.partitioned (.of_reaches h.built hreaches)
  obtain ⟨site, outer, chain, hopen, hnext, hextend, hnodes, houter, htarget, -⟩ :=
    hleaving.of_ret h.built h.prepared.laid h.partitioned hret
  exact ⟨out, site, outer, chain, hleaving.output, hopen, hextend, hnodes, houter, htarget,
    (h.built.next_sound hnext).2⟩

end MethodContext

/-! ### Verifications -/

section Verification

variable {h : Hierarchy} {options : VerifyOptions} {runId : String} {owner : Class} {m : Method}
  {prepared : PreparedCode}

theorem build_ne_internal (hprepared : m.prepare owner.pool = .ok prepared) (strict : Bool)
    (e : InternalError) :
    FlowGraph.build prepared.code m.handlers owner.pool strict ≠ .error (.internal e) := by
  intro he
  have h := Method.prepared_of_prepare hprepared
  obtain ⟨fault, hfault⟩ := FlowGraph.build_rejects h.laid h.handlers strict _ he
  cases hfault

theorem wraps_of_verify {e : InternalError} (he : verify h options runId owner m = .error e) :
    e = .unsettled ∨ e.Wraps h := by
  obtain ⟨prepared, hprepared, hg | ⟨g, s, hg, hsolve⟩⟩ := verify_error he
  · exact absurd hg (build_ne_internal hprepared _ e)
  · obtain ⟨s₀, hfails, -⟩ := (MethodContext.solve_reaches hsolve).2 _ rfl
    have hready := MethodContext.Ready.of_build (h := h) hprepared hg
    exact (MethodContext.fails_wraps hready hfails).imp_left Failure.internal.inj

end Verification

/-- For every class, method, option and hierarchy, a verification that gives no verdict passes on an
error with which the hierarchy answered, or did not settle within the bound on its visits. Whatever
the bound, no step of its data flow has any other failure. -/
theorem verify_error_wraps (h : Hierarchy) (options : VerifyOptions) (runId : String)
    (owner : Class) (m : Method) :
    (∀ e, verify h options runId owner m = .error e → e = .unsettled ∨ e.Wraps h) ∧
      ∀ prepared, m.prepare owner.pool = .ok prepared →
        (∀ e, FlowGraph.build prepared.code m.handlers owner.pool options.strict ≠
          .error (.internal e)) ∧
        ∀ g, FlowGraph.build prepared.code m.handlers owner.pool options.strict = .ok g →
          ∀ s failure, MethodContext.Fails ⟨h, owner, m, prepared.type⟩ g s failure →
            failure = .internal .unsettled ∨ failure.Wraps h :=
  ⟨fun _ => wraps_of_verify, fun _ hprepared => ⟨build_ne_internal hprepared _,
    fun _ hg _ _ hfails => MethodContext.fails_wraps (.of_build hprepared hg) hfails⟩⟩

/-- A class whose pool names a class that is not there. -/
def missingClass : Class :=
  { plainClass with pool := (ConstantPool.empty.addClass "app/Missing").1 }

/-- An allocation of that class. -/
def newMissing : Method where
  name := "newMissing"
  descriptor := "()V"
  access := .staticBit
  maxStack := 1
  maxLocals := 0
  -- new #2, pop, return
  code := [0xbb, 0x00, 0x02, 0x57, 0xb1]

theorem verify_error_wraps_newMissing :
    verify plainTable {} "" missingClass newMissing =
        .error (.loadClass "app/Missing" (.classNotFound "app/Missing")) ∧
      (InternalError.loadClass "app/Missing" (.classNotFound "app/Missing")).Wraps plainTable := by
  have hverify : verify plainTable {} "" missingClass newMissing =
      .error (.loadClass "app/Missing" (.classNotFound "app/Missing")) := by decide +kernel
  refine ⟨hverify, ?_⟩
  exact ((verify_error_wraps plainTable {} "" missingClass newMissing).1 _ hverify).resolve_left
    (by simp)

/-- The failures of a data flow that loses its way among subroutines. -/
def InternalError.losesWay : InternalError → Bool
  | .noOpenCall _ | .returnElsewhere .. | .returnToNoCaller .. | .deadCode _ | .noInstruction _
  | .noOutFrame .. => true
  | _ => false

/-- In a method that passed the checks and has a graph, at each moment of data flow and whatever its
outcome, frames lie in the regions of the graph; each return that is due goes on after the innermost
open call; and the way is never lost. -/
theorem subroutine_contexts (h : Hierarchy) (options : VerifyOptions) (runId : String)
    (owner : Class) (m : Method) (prepared : PreparedCode) (g : FlowGraph)
    (hprepared : m.prepare owner.pool = .ok prepared)
    (hg : FlowGraph.build prepared.code m.handlers owner.pool options.strict = .ok g) :
    (∀ tasks queue s, MethodContext.Reaches ⟨h, owner, m, prepared.type⟩ g tasks queue s →
        MethodContext.InRegions g s) ∧
      (∀ s r, MethodContext.solve ⟨h, owner, m, prepared.type⟩ g = (s, r) →
        MethodContext.InRegions g s) ∧
      (∀ item queue s,
        MethodContext.Reaches ⟨h, owner, m, prepared.type⟩ g [] (item :: queue) s →
        (g.instruction item.node).op.isRet = true → MethodContext.ReturnsTo g s item) ∧
      ∀ e, verify h options runId owner m = .error e → e.losesWay = false := by
  have hready := MethodContext.Ready.of_build (h := h) hprepared hg
  refine ⟨fun _ _ _ => MethodContext.inRegions_of_reaches hready,
    fun _ _ => MethodContext.inRegions_of_solve hready,
    fun _ _ _ => MethodContext.returnsTo_of_reaches hready, fun e he => ?_⟩
  rcases wraps_of_verify he with rfl | hwraps
  · rfl
  · cases e <;> first | rfl | exact hwraps.elim

theorem subroutine_contexts_callInLoop : ∃ prepared g,
    callInLoop.prepare plainClass.pool = .ok prepared ∧
    FlowGraph.build prepared.code callInLoop.handlers plainClass.pool true = .ok g ∧
    (g.instruction 5).op.isRet = true ∧ g.ownerOf 5 = some 1 ∧
    MethodContext.InRegions g
      (MethodContext.solve ⟨plainTable, plainClass, callInLoop, prepared.type⟩ g).1 := by
  obtain ⟨prepared, hprepared, g, hg, hret, howner⟩ : ∃ prepared,
      callInLoop.prepare plainClass.pool = .ok prepared ∧
      ∃ g, FlowGraph.build prepared.code callInLoop.handlers plainClass.pool true = .ok g ∧
      (g.instruction 5).op.isRet = true ∧ g.ownerOf 5 = some 1 := by decide +kernel
  exact ⟨prepared, g, hprepared, hg, hret, howner, (subroutine_contexts plainTable {} "" plainClass
    callInLoop prepared g hprepared hg).2.1 _ _ rfl⟩

end Bytecode
