import Bytecode.Proofs.OpenCalls
import Bytecode.Proofs.Termination

/-!
The instructions that a diagnostic shows are a way through the graph.

A chain travels with the queued nodes and grows when one is visited, while what was looked at last
is noted anew at each execution. That the two fit together is an invariant of all that is due,
queued or was looked at.

* `Trailed.of_reaches`: a way leads to what is due, queued or was looked at last;
* `diagnostic_trail`: each diagnostic shows such a way, which does not depend on how many are kept.
-/
namespace Bytecode

open List

/-! ### Ways through the graph -/

namespace CodeEdges

variable {g : CodeEdges}

/-- The calls that are open after some instructions, the innermost first. -/
def openAfter (g : CodeEdges) (nodes : List Nat) : List Nat :=
  nodes.foldl (fun opened n =>
    if (g.instruction n).op.isJsr then n :: opened
    else if (g.instruction n).op.isRet then opened.tail
    else opened) []

/-- Node `b` follows `a` after the nodes `before`: along an edge, or back from a subroutine to the
instruction after the innermost open call. -/
def Follows (g : CodeEdges) (before : List Nat) (a b : Nat) : Prop :=
  b ∈ g.successorsOf a ∨
    (g.instruction a).op.isRet = true ∧
      ∃ call, (g.openAfter before).head? = some call ∧ g.next call = .ok b

/-- A way through the graph, oldest node first: it starts at the entry or at a handler, and each
node follows the one before it. -/
structure IsTrail (g : CodeEdges) (nodes : List Nat) : Prop where
  start : nodes.head? = some 0 ∨ ∃ guard ∈ g.guards, nodes.head? = some guard.entry
  step : ∀ before a b after, nodes = before ++ a :: b :: after → g.Follows before a b

theorem isTrail_singleton {n : Nat} (h : n = 0 ∨ ∃ guard ∈ g.guards, n = guard.entry) :
    g.IsTrail [n] where
  start := by simpa using h
  step before a b after heq := by
    have hlength := congrArg List.length heq
    simp only [length_append, length_cons, length_nil] at hlength
    omega

theorem IsTrail.snoc {path : List Nat} {a b : Nat} (h : g.IsTrail (path ++ [a]))
    (hab : g.Follows path a b) : g.IsTrail (path ++ [a] ++ [b]) where
  start := by simpa using h.start
  step before x y after heq := by
    -- The last pair is the new one, and every other lies in the old way.
    rcases eq_nil_or_concat after with rfl | ⟨after, z, rfl⟩
    · have hsplit : path ++ [a] ++ [b] = before ++ [x] ++ [y] := by simpa using heq
      obtain ⟨hinit, hlast⟩ := append_inj' hsplit rfl
      obtain ⟨rfl, hlast'⟩ := append_inj' hinit rfl
      cases hlast
      cases hlast'
      exact hab
    · have hsplit : path ++ [a] ++ [b] = before ++ x :: y :: after ++ [z] := by simpa using heq
      exact h.step before x y after (append_inj' hsplit rfl).1

theorem IsTrail.lt_size {code : Array Instruction} {table : List Handler} {pool : ConstantPool}
    (hbuilt : g.Built code table pool) {nodes : List Nat} (h : g.IsTrail nodes) {n : Nat}
    (hn : n ∈ nodes) : n < g.size := by
  obtain ⟨before, after, rfl⟩ := append_of_mem hn
  rcases eq_nil_or_concat before with rfl | ⟨before, a, rfl⟩
  · rcases h.start with hzero | ⟨guard, hguard, hentry⟩
    · cases hzero
      exact hbuilt.nonempty
    · cases hentry
      exact hbuilt.entry_lt hguard
  · rcases h.step before a n after (by simp) with hedge | ⟨-, call, -, hnext⟩
    · exact hbuilt.successor_lt hedge
    · exact (hbuilt.next_sound hnext).1

theorem openAfter_snoc (nodes : List Nat) (n : Nat) : g.openAfter (nodes ++ [n]) =
    if (g.instruction n).op.isJsr then n :: g.openAfter nodes
    else if (g.instruction n).op.isRet then (g.openAfter nodes).tail
    else g.openAfter nodes := by
  simp [openAfter]

end CodeEdges

/-! ### Chains -/

/-- A chain leads to a node: with it the chain is a way through the graph, and its open calls are
those of the way. -/
structure CallChain.Trails (chain : CallChain) (g : CodeEdges) (n : Nat) : Prop where
  trail : g.IsTrail (chain.nodes.reverse ++ [n])
  openCalls : chain.openCalls = g.openAfter chain.nodes.reverse
  length : chain.length = chain.nodes.length

namespace CallChain

variable {g : CodeEdges} {chain chain' : CallChain} {n m : Nat}

theorem trails_empty (h : n = 0 ∨ ∃ guard ∈ g.guards, n = guard.entry) :
    CallChain.empty.Trails g n :=
  ⟨CodeEdges.isTrail_singleton h, rfl, rfl⟩

theorem Trails.extend (h : chain.Trails g n)
    (hextend : chain.extend n (g.instruction n).op.isJsr (g.instruction n).op.isRet = .ok chain')
    (hfollows : g.Follows chain.nodes.reverse n m) : chain'.Trails g m := by
  obtain ⟨hnodes, hlength, hopen⟩ := extend_eq_ok hextend
  refine ⟨?_, ?_, by rw [hnodes, hlength, h.length, length_cons]⟩
  · rw [hnodes, reverse_cons]
    exact h.trail.snoc hfollows
  · rw [hnodes, hopen, reverse_cons, CodeEdges.openAfter_snoc, h.openCalls]

end CallChain

/-! ### Data flow -/

namespace MethodContext

variable {c : MethodContext} {g : FlowGraph} {tasks : List Task} {queue : List WorkItem}
  {s s' : FlowState}

theorem last_execute (c : MethodContext) (g : FlowGraph) (n : Nat) (f : Frame) (chain : CallChain)
    (s : FlowState) : ∃ f', (c.execute g n f chain s).1.last = some ⟨n, f', chain⟩ := by
  have hrun : ∀ f s, ∃ f', (c.runNode g n f chain s).1.last = some ⟨n, f', chain⟩ := by
    intro f s
    unfold runNode
    simp only
    split
    · exact ⟨_, rfl⟩
    · split <;> exact ⟨_, rfl⟩
  unfold execute
  simp only
  split
  · exact hrun _ _
  · split
    · exact ⟨_, rfl⟩
    · exact ⟨_, rfl⟩
    · exact hrun _ _

theorem follows_of_leaving {item : WorkItem} {out : Frame} {chain : CallChain}
    {successors : List Nat} (h : item.chain.Trails g.toCodeEdges item.node)
    (hleaves : leaving g item s = .ok (out, chain, successors)) :
    ∀ m ∈ successors, g.Follows item.chain.nodes.reverse item.node m := by
  intro m hm
  obtain ⟨-, -, hsuccessors⟩ := leaving_eq_ok.1 hleaves
  unfold flowSuccessors at hsuccessors
  split at hsuccessors
  · next hret =>
    -- A return goes on after the innermost open call of the chain before it.
    simp only [bind_eq_ok, pure_eq_ok] at hsuccessors
    obtain ⟨next, hnext, rfl⟩ := hsuccessors
    obtain ⟨call, hcall, hnext⟩ := returnTarget_ok hnext
    rw [mem_singleton.1 hm]
    refine .inr ⟨hret, call, ?_, hnext⟩
    rw [← h.openCalls, ← CallChain.openCall?_eq_head?]
    exact hcall
  · cases hsuccessors
    exact .inl hm

/-- Whatever is due, queued or was looked at last has its chain lead to it. -/
structure Trailed (g : FlowGraph) (tasks : List Task) (queue : List WorkItem) (s : FlowState) :
    Prop where
  tasks : ∀ task ∈ tasks, task.chain.Trails g.toCodeEdges task.node
  queue : ∀ item ∈ queue, item.chain.Trails g.toCodeEdges item.node
  last : ∀ v, s.last = some v → v.chain.Trails g.toCodeEdges v.node

namespace Trailed

theorem start {f : Frame} : Trailed g [.flow 0 f .empty] [] (startState g) where
  tasks task htask := by
    rw [mem_singleton.1 htask]
    exact CallChain.trails_empty (.inl rfl)
  queue := by simp
  last := by simp [startState]

theorem visit {item : WorkItem} {out : Frame} {chain : CallChain} {successors : List Nat}
    (h : Trailed g [] (item :: queue) s)
    (hleaves : leaving g item s = .ok (out, chain, successors)) :
    Trailed g (dueTasks g item out chain successors) queue s where
  tasks task htask := by
    have hitem := h.queue item mem_cons_self
    rcases mem_append.1 htask with htask | htask
    · obtain ⟨m, hm, rfl⟩ := mem_map.1 htask
      exact hitem.extend (leaving_eq_ok.1 hleaves).2.1 (follows_of_leaving hitem hleaves m hm)
    · obtain ⟨guard, hguard, rfl⟩ := mem_map.1 htask
      exact CallChain.trails_empty (.inr ⟨guard, CodeEdges.mem_guards hguard, rfl⟩)
  queue other hother := h.queue other (mem_cons_of_mem item hother)
  last := h.last

theorem last_of_execute {task : Task} {f : Frame} {r : Except Failure Bool}
    (h : Trailed g (task :: tasks) queue s)
    (hexec : c.execute g task.node f task.chain s = (s', r)) :
    ∀ v, s'.last = some v → v.chain.Trails g.toCodeEdges v.node := by
  intro v hv
  obtain ⟨f', hlast⟩ := last_execute c g task.node f task.chain s
  rw [hexec, hv] at hlast
  cases hlast
  exact h.tasks task mem_cons_self

theorem perform {task : Task} {f : Frame} {changed : Bool}
    (h : Trailed g (task :: tasks) queue s)
    (hexec : c.execute g task.node f task.chain s = (s', .ok changed)) :
    Trailed g tasks (queue ++ queued task changed) s' where
  tasks other hother := h.tasks other (mem_cons_of_mem task hother)
  queue item hitem := by
    rcases mem_append.1 hitem with hitem | hitem
    · exact h.queue item hitem
    · unfold queued at hitem
      split at hitem
      · rw [mem_singleton.1 hitem]
        exact h.tasks task mem_cons_self
      · cases hitem
  last := h.last_of_execute hexec

theorem of_reaches (h : Reaches c g tasks queue s) : Trailed g tasks queue s := by
  induction h with
  | start => exact start
  | visit _ hleaves ih => exact ih.visit hleaves
  | perform _ _ hexec ih => exact ih.perform hexec

/-- A failure leaves the note of a node that a chain leads to. -/
theorem of_breaks {e : Failure} (h : Breaks c g s e) :
    ∀ v, s.last = some v → v.chain.Trails g.toCodeEdges v.node := by
  cases h with
  | initial => simp [startState]
  | leaving hreaches => exact (of_reaches hreaches).last
  | frame hreaches => exact (of_reaches hreaches).last
  | execute hreaches _ hexec => exact (of_reaches hreaches).last_of_execute hexec

end Trailed

/-- A rejection comes from a step of data flow, never from the exits. -/
theorem breaks_of_solve_rejected {code : Array Instruction} {r : Rejection}
    (hg : g.toCodeEdges.Built code c.method.handlers c.pool)
    (hsolve : c.solve g = (s, .error (.rejected r))) : Breaks c g s (.rejected r) := by
  unfold solve at hsolve
  split at hsolve
  · cases hsolve
  · next f hf =>
    have hstart : Reaches c g [.flow 0 f .empty] [] (startState g) := .start hf
    split at hsolve
    · next hexec =>
      cases hsolve
      exact .execute hstart rfl hexec
    · next s₁ changed hexec =>
      have hfirst := Reaches.perform hstart rfl hexec
      rw [execute_start_changed hexec] at hfirst
      split at hsolve
      · next hsettle =>
        cases hsolve
        rcases (settle_reaches hfirst hsettle).2 _ rfl with hbreaks | ⟨hunsettled, -⟩
        · exact hbreaks
        · cases hunsettled
      · next hsettle =>
        -- What the exits look at again has passed the same check when it was stored.
        have hdone := (settle_reaches hfirst hsettle).1 rfl
        obtain ⟨n, hfails⟩ := (scanExits_frames hsolve).2 _ rfl
        exact absurd hfails (not_exitFails hg hdone)

end MethodContext

/-! ### Diagnostics -/

/-- A diagnostic shows an instruction and the way to it: all of the way without a limit, or else as
many of its latest instructions as the limit allows, and it counts the others. -/
structure Diagnostic.Shows (d : Diagnostic) (g : CodeEdges) (path : List Nat) (n : Nat)
    (limit : Int) : Prop where
  instruction : d.instruction = (g.instruction n).text
  offset : d.offset = (g.instruction n).pos
  whole : limit ≤ 0 → d.chain = path.map fun k => (g.instruction k).text
  latest : d.chain <:+ path.map fun k => (g.instruction k).text
  kept : 0 < limit → (d.chain.length : Int) = min limit path.length
  elided : d.elided + d.chain.length = path.length

theorem CallChain.newest_spec {chain : CallChain} (h : chain.length = chain.nodes.length)
    (limit : Int) :
    (chain.newest limit).1 <:+ chain.nodes.reverse ∧
      (chain.newest limit).1.length =
        (if limit ≤ 0 then chain.nodes.length else min limit.toNat chain.nodes.length) ∧
      (chain.newest limit).2 + (chain.newest limit).1.length = chain.nodes.length := by
  rw [newest_eq, h]
  refine ⟨reverse_suffix.2 <| take_prefix _ _, ?_, ?_⟩ <;>
    simp only [length_reverse, length_take] <;> grind

theorem Visit.shows_diagnostic {v : Visit} (h : v.chain.length = v.chain.nodes.length)
    (g : FlowGraph) (limit : Int) :
    (v.diagnostic g limit).Shows g.toCodeEdges v.chain.nodes.reverse v.node limit := by
  obtain ⟨hlatest, hkept, helided⟩ := CallChain.newest_spec h limit
  exact
    { instruction := rfl
      offset := rfl
      whole := fun hlimit => by
        rw [if_pos hlimit] at hkept
        exact congrArg _ (hlatest.eq_of_length (by rw [hkept, length_reverse]))
      latest := hlatest.map _
      kept := fun hlimit => by
        rw [if_neg (by omega)] at hkept
        simp only [diagnostic, length_map, length_reverse, hkept]
        omega
      elided := by
        simp only [diagnostic, length_map, length_reverse]
        omega }

/-- The same options with another limit on diagnostics. -/
def VerifyOptions.withLimit (options : VerifyOptions) (limit : Int) : VerifyOptions :=
  { options with traceLimit := limit }

section Verify

variable {h : Hierarchy} {options : VerifyOptions} {runId : String} {owner : Class} {m : Method}
  {verdict : Verdict} {d : Diagnostic}

/-- A diagnostic is that of what data flow looked at last before a rejection, whatever the limit. -/
theorem verify_diagnostic (hverify : verify h options runId owner m = .ok verdict)
    (hd : verdict.diagnostic = some d) : ∃ prepared g s r v,
      m.prepare owner.pool = .ok prepared ∧
      FlowGraph.build prepared.code m.handlers owner.pool options.strict = .ok g ∧
      MethodContext.solve ⟨h, owner, m, prepared.type⟩ g = (s, .error (.rejected r)) ∧
      s.last = some v ∧
      ∀ limit, ∃ verdict', verify h (options.withLimit limit) runId owner m = .ok verdict' ∧
        verdict'.status = .rejected ∧ verdict'.diagnostic = some (v.diagnostic g limit) := by
  unfold verify verifyTraced at hverify ⊢
  simp only at hverify ⊢
  split at hverify
  · cases hverify
    cases hd
  · next hcode =>
    split at hverify
    · cases hverify
      cases hd
    · next prepared hprepared =>
      split at hverify
      · cases hverify
      · cases hverify
        cases hd
      · next g hg =>
        rcases hsolve : MethodContext.solve ⟨h, owner, m, prepared.type⟩ g with ⟨s, r⟩
        simp only [hsolve] at hverify
        split at hverify
        · cases hverify
          cases hd
        · cases hverify
        · next r =>
          cases hverify
          obtain ⟨v, hv, -⟩ := Option.map_eq_some_iff.1 hd
          refine ⟨prepared, g, s, r, v, hprepared, hg, hsolve, hv, fun limit => ?_⟩
          simp only [VerifyOptions.withLimit, hcode, hg, hsolve, hv]
          exact ⟨_, rfl, rfl, rfl⟩

/-- The instructions of a diagnostic are a way through the graph to the instruction that it names.
With another limit it shows more or less of the same way. -/
theorem diagnostic_trail (hverify : verify h options runId owner m = .ok verdict)
    (hd : verdict.diagnostic = some d) : ∃ prepared g path n,
      m.prepare owner.pool = .ok prepared ∧
      FlowGraph.build prepared.code m.handlers owner.pool options.strict = .ok g ∧
      g.IsTrail (path ++ [n]) ∧ (∀ k ∈ path ++ [n], k < g.size) ∧
      d.Shows g.toCodeEdges path n options.traceLimit ∧
      ∀ limit, ∃ verdict' d', verify h (options.withLimit limit) runId owner m = .ok verdict' ∧
        verdict'.status = .rejected ∧ verdict'.diagnostic = some d' ∧
        d'.Shows g.toCodeEdges path n limit := by
  obtain ⟨prepared, g, s, r, v, hprepared, hg, hsolve, hv, hlimits⟩ :=
    verify_diagnostic hverify hd
  have hbuilt := FlowGraph.built_of_build hg
  have hbreaks := MethodContext.breaks_of_solve_rejected hbuilt hsolve
  have hlength := (MethodContext.Trailed.of_breaks hbreaks v hv).length
  have htrail := (MethodContext.Trailed.of_breaks hbreaks v hv).trail
  refine ⟨prepared, g, v.chain.nodes.reverse, v.node, hprepared, hg, htrail,
    fun k hk => htrail.lt_size hbuilt hk, ?_, fun limit => ?_⟩
  · obtain ⟨verdict', hverify', -, hd'⟩ := hlimits options.traceLimit
    cases hverify.symm.trans hverify'
    cases hd.symm.trans hd'
    exact Visit.shows_diagnostic hlength g options.traceLimit
  · obtain ⟨verdict', hverify', hstatus, hd'⟩ := hlimits limit
    exact ⟨verdict', _, hverify', hstatus, hd', Visit.shows_diagnostic hlength g limit⟩

end Verify

/-- An empty stack is popped after a subroutine has returned. -/
def popAfterCall : Method where
  name := "popAfterCall"
  descriptor := "()V"
  access := .staticBit
  maxStack := 1
  maxLocals := 1
  -- jsr 5, pop, return; astore_0, ret 0
  code := [0xa8, 0x00, 0x05, 0x57, 0xb1, 0x4b, 0xa9, 0x00]

/-- All three instructions before the failing one are kept, or only the return. -/
theorem diagnostic_trail_popAfterCall : ∃ verdict d prepared g path n,
    verify plainTable {} "" plainClass popAfterCall = .ok verdict ∧ verdict.diagnostic = some d ∧
    d.chain = ["0: jsr 5", "5: astore_0", "6: ret 0"] ∧ d.instruction = "3: pop" ∧
    popAfterCall.prepare plainClass.pool = .ok prepared ∧
    FlowGraph.build prepared.code popAfterCall.handlers plainClass.pool true = .ok g ∧
    g.IsTrail (path ++ [n]) ∧ d.Shows g.toCodeEdges path n 32 ∧
    ∃ verdict' d', verify plainTable (VerifyOptions.withLimit {} 1) "" plainClass popAfterCall =
        .ok verdict' ∧
      verdict'.diagnostic = some d' ∧ d'.Shows g.toCodeEdges path n 1 := by
  obtain ⟨verdict, hverify, d, hd, hchain, hinstruction⟩ : ∃ verdict,
      verify plainTable {} "" plainClass popAfterCall = .ok verdict ∧
      ∃ d, verdict.diagnostic = some d ∧ d.chain = ["0: jsr 5", "5: astore_0", "6: ret 0"] ∧
      d.instruction = "3: pop" := by decide +kernel
  obtain ⟨prepared, g, path, n, hprepared, hg, htrail, -, hshows, hlimits⟩ :=
    diagnostic_trail hverify hd
  obtain ⟨verdict', d', hverify', -, hd', hshows'⟩ := hlimits 1
  exact ⟨verdict, d, prepared, g, path, n, hverify, hd, hchain, hinstruction, hprepared, hg, htrail,
    hshows, verdict', d', hverify', hd', hshows'⟩

end Bytecode
