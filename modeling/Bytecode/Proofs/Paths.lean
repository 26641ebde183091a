import Bytecode.Proofs.FixedPoint
import Bytecode.Proofs.Limits
import Bytecode.Proofs.Subroutines

/-!
Paths through the graph of a method, and the stored frames along them.

A path goes from the entry of a method to static successors, back from subroutines and to handlers.
It need not be one that data flow has taken: the frames inside a subroutine are shared by all chains
of calls that lead there, so a path may go on after a call under a context that another chain has
stored. What a return reads then tells the two apart.

Main statement: `exists_along`, where data flow has ended there are stored frames along every path,
each of which covers what the one before it carries on.
-/
namespace Bytecode

namespace FlowGraph

/-- A place on a path: a node, and the calls that are open there, the innermost first. -/
structure Point where
  node : Nat
  calls : List Nat := []
  deriving DecidableEq, Repr

/-- The context of the innermost call. -/
def Point.key (p : Point) : CallKey :=
  match p.calls with
  | [] => .topLevel
  | call :: _ => .call call

/-- How a path goes on: to a static successor, back from a subroutine, or to a handler. -/
inductive Turn where
  | flow (node : Nat)
  | back
  | caught (guard : Guard)
  deriving DecidableEq, Repr

/-- A node of a path, and how the path goes on from there. -/
structure Leg where
  node : Nat
  turn : Turn
  deriving DecidableEq, Repr

/-- Where a turn leads. A call is open from its subroutine on, a return ends the innermost open call
and goes on after it, and a handler ends all calls. -/
def follow (g : FlowGraph) (p : Point) : Turn → Option Point
  | .flow n =>
    if n ∈ g.successorsOf p.node then
      some ⟨n, if (g.instruction p.node).op.isJsr then p.node :: p.calls else p.calls⟩
    else none
  | .back =>
    match p.calls with
    | [] => none
    | call :: outer =>
      if (g.instruction p.node).op.isRet then (g.next call).toOption.map (⟨·, outer⟩) else none
  | .caught guard => if guard ∈ g.guardsOf p.node then some ⟨guard.entry, []⟩ else none

/-- Where a path from the entry ends. Its legs stand latest first. -/
def walk (g : FlowGraph) : List Leg → Option Point
  | [] => some ⟨0, []⟩
  | leg :: before => do
    let p ← g.walk before
    if leg.node = p.node then g.follow p leg.turn else none

theorem walk_cons {g : FlowGraph} {leg : Leg} {before : List Leg} {q : Point} :
    g.walk (leg :: before) = some q ↔
      ∃ p, g.walk before = some p ∧ leg.node = p.node ∧ g.follow p leg.turn = some q := by
  simp only [walk, Option.bind_eq_bind, Option.bind_eq_some_iff]
  refine exists_congr fun p => and_congr_right fun _ => ?_
  split
  · next hnode => simp [hnode]
  · next hnode => simp [hnode]

/-- Contexts under which frames are stored where some calls are open: the one of no call, or that of
a call to the subroutine that the innermost of them has entered. -/
def Context (g : FlowGraph) (calls : List Nat) : CallKey → Prop
  | .topLevel => calls = []
  | .call site => ∃ call ∈ calls.head?, ∃ leader ∈ g.successorsOf site, leader ∈ g.successorsOf call

/-- The contexts in which a path may go on. They are its own but after a return to a subroutine,
which may have been stored under another call of that subroutine. -/
def Turns (g : FlowGraph) (p : Point) (k k' : CallKey) : Turn → Prop
  | .flow _ => k' = MethodContext.successorKey g p.node k
  | .back => ∃ call outer, p.calls = call :: outer ∧ k = .call call ∧ g.Context outer k'
  | .caught _ => k' = .topLevel

end FlowGraph

open FlowGraph

/-! ### Runs without merges -/

/-- The frame that a turn carries on, from the frames on entry and on exit. -/
def FlowGraph.Turn.frame (turn : Turn) (input out : Frame) : Except InternalError Frame :=
  match turn with
  | .caught guard => MethodContext.handlerFrame guard out (some input)
  | _ => .ok out

namespace MethodContext

variable {turn : Turn} {input out carried : Frame} {k : CallKey} {q : Point} {guard : Guard}

theorem frame_eq_ok :
    turn.frame input out = .ok carried ↔
      (∀ guard, turn ≠ .caught guard) ∧ carried = out ∨
      ∃ guard, turn = .caught guard ∧ 1 ≤ out.stack.max ∧ carried = caughtFrame guard input out := by
  cases turn with
  | flow | back => simp [Turn.frame, eq_comm]
  | caught guard =>
    simp only [Turn.frame, handlerFrame, bind_eq_ok, pure_eq_ok, Stack.push_eq_ok]
    simp [Guard.caughtType, ValueType.size, caughtFrame, eq_comm]

theorem locals_of_frame (h : turn.frame input out = .ok carried) : carried.locals = out.locals := by
  rcases frame_eq_ok.1 h with ⟨-, rfl⟩ | ⟨guard, -, -, rfl⟩ <;> rfl

theorem max_of_frame (h : turn.frame input out = .ok carried) :
    carried.stack.max = out.stack.max := by
  rcases frame_eq_ok.1 h with ⟨-, rfl⟩ | ⟨guard, -, -, rfl⟩ <;> rfl

/-- The frame at the end of a path along which each instruction is checked and run on what the one
before it left. -/
def pathFrame (c : MethodContext) (g : FlowGraph) : List Leg → Except Failure Frame
  | [] => known c.initialFrame
  | leg :: before => do
    let f ← c.pathFrame g before
    c.check (g.instruction leg.node) f
    let out ← known (c.run (g.instruction leg.node) f)
    known (leg.turn.frame f out)

variable {c : MethodContext} {g : FlowGraph} {code : Array Instruction} {s : FlowState}
  {calls calls' : List OpenCall} {legs : List Leg} {p : Point} {n : Nat} {f out : Frame}

/-! ### Where data flow has ended -/

/-- Data flow over a prepared method has ended without a failure and left the state `s`. -/
structure Solved (c : MethodContext) (g : FlowGraph) (code : Array Instruction) (s : FlowState) :
    Prop where
  ready : Ready c g code
  fixed : FixedPoint c g s
  tracked : Tracked g [] [] s
  fits : ∀ {n k f}, s.inputs.get? n k = some f ∨ s.outputs.get? n k = some f → c.Fits f

theorem Tracked.of_sameFrames {s₀ : FlowState} (h : Tracked g [] [] s₀)
    (hsame : SameFrames s s₀) : Tracked g [] [] s where
  stored n k f hf := by
    rw [hsame.1] at hf
    obtain ⟨calls, hkey, hstanding⟩ := h.stored n k f hf
    refine ⟨calls, hkey, hstanding.located, fun call hcall => ?_, hsame.1 ▸ hstanding.stored,
      hstanding.fits⟩
    rw [hsame.1]
    exact hstanding.begun call hcall
  queued := by simp
  due := by simp

theorem Solved.of_solve (h : Ready c g code) (hc : c.hierarchy.Coherent)
    (hs : c.solve g = (s, .ok ())) : Solved c g code s where
  ready := h
  fixed := fixedPoint_of_solve hc h.built hs
  tracked := by
    obtain ⟨s₀, hreaches, hsame⟩ := (solve_reaches hs).1 rfl
    exact (Tracked.of_reaches h.built h.prepared.laid h.partitioned hreaches).of_sameFrames hsame
  fits {n k f} hf := by
    obtain ⟨s₀, hreaches, hsame⟩ := (solve_reaches hs).1 rfl
    obtain ⟨hin, hout, -⟩ := (fits_invariant h).of_reaches h.built hreaches
    rw [hsame.1, hsame.2] at hf
    exact hf.elim (hin n k f) (hout n k f)

theorem Ready.site_eq (h : Ready c g code) {site site' : Nat} (hsite : site < g.size)
    (hsite' : site' < g.size) (hnext : (g.instruction site).next = (g.instruction site').next) :
    site = site' :=
  h.prepared.laid.eq_of_next_eq (h.built.code ▸ CodeEdges.getElem?_code g.toCodeEdges hsite)
    (h.built.code ▸ CodeEdges.getElem?_code g.toCodeEdges hsite') hnext

theorem Solved.lt (h : Solved c g code s) (hf : s.inputs.get? n k = some f) : n < g.size := by
  obtain ⟨calls, -, hstanding⟩ := h.tracked.stored _ _ _ hf
  exact hstanding.located.lt h.ready.partitioned

/-! ### Stored frames along a path -/

/-- Frames that are stored at the points of a path, each of which covers what the path carries to
its point. The context at the end of the path, the frame that is carried there and the one that is
stored there are given. -/
inductive Along (c : MethodContext) (g : FlowGraph) (s : FlowState) :
    List Leg → Point → CallKey → Frame → Frame → Prop
  | start {carried first : Frame} (initial : c.initialFrame = .ok carried)
      (stored : s.inputs.get? 0 .topLevel = some first)
      (covers : first.Covers c.hierarchy carried) :
      Along c g s [] ⟨0, []⟩ .topLevel carried first
  | turn {before : List Leg} {p q : Point} {k k' : CallKey} {turn : Turn}
      {earlier input out carried next : Frame} (along : Along c g s before p k earlier input)
      (check : c.check (g.instruction p.node) input = .ok ())
      (run : c.run (g.instruction p.node) input = .ok out)
      (output : s.outputs.get? p.node k = some out) (follow : g.follow p turn = some q)
      (turns : g.Turns p k k' turn) (carries : turn.frame input out = .ok carried)
      (stored : s.inputs.get? q.node k' = some next)
      (covers : next.Covers c.hierarchy carried) :
      Along c g s (⟨p.node, turn⟩ :: before) q k' carried next

theorem Along.stored (h : Along c g s legs p k carried f) : s.inputs.get? p.node k = some f := by
  cases h with
  | start _ stored => exact stored
  | turn _ _ _ _ _ _ _ stored => exact stored

theorem Along.walk (h : Along c g s legs p k carried f) : g.walk legs = some p := by
  induction h with
  | start => rfl
  | turn _ _ _ _ follow _ _ _ _ ih => exact walk_cons.2 ⟨_, ih, rfl, follow⟩

/-- Somewhere on the way along some legs of a path, which come after others, what the path carries
to a node and the frame that is stored there are related. -/
def MeetsOn (c : MethodContext) (g : FlowGraph) (s : FlowState) (R : Frame → Frame → Prop)
    (legs early : List Leg) : Prop :=
  ∃ before after q k carried next, legs = after ++ before ∧
    Along c g s (before ++ early) q k carried next ∧ R carried next

theorem MeetsOn.here {R : Frame → Frame → Prop} {early : List Leg}
    (halong : Along c g s (legs ++ early) p k carried f) (hmeets : R carried f) :
    MeetsOn c g s R legs early :=
  ⟨legs, [], p, k, carried, f, rfl, halong, hmeets⟩

theorem MeetsOn.cons {R : Frame → Frame → Prop} {leg : Leg} {early : List Leg}
    (h : MeetsOn c g s R legs early) : MeetsOn c g s R (leg :: legs) early := by
  obtain ⟨before, after, q, k, carried, next, rfl, hrest⟩ := h
  exact ⟨before, leg :: after, q, k, carried, next, rfl, hrest⟩

theorem isRet_of_successor (h : Ready c g code) {m : Nat} (hm : m ∈ g.successorsOf n) :
    (g.instruction n).op.isRet = false := by
  by_contra hret
  have haction : (g.instruction n).action = .ret :=
    of_decide_eq_true (Bool.not_eq_false _ ▸ hret)
  rcases Nat.lt_or_ge n g.size with hn | hn
  · have hsuccessors := h.built.successors n hn
    simp only [CodeEdges.staticSuccessors, haction, Except.ok.injEq] at hsuccessors
    simp [← hsuccessors] at hm
  · simp [h.built.noSuccessors n hn] at hm

/-- After a throw no path goes on but to a handler. -/
theorem action_ne_raise (h : Ready c g code) (hfollow : g.follow p turn = some q)
    (hturn : ∀ guard, turn ≠ .caught guard) : (g.instruction p.node).action ≠ .raise := by
  intro hraise
  cases turn with
  | flow n =>
    simp only [follow, Option.ite_none_right_eq_some] at hfollow
    obtain ⟨hn, -⟩ := hfollow
    rcases Nat.lt_or_ge p.node g.size with hlt | hge
    · have hsuccessors := h.built.successors _ hlt
      simp only [CodeEdges.staticSuccessors, hraise, Except.ok.injEq] at hsuccessors
      simp [← hsuccessors] at hn
    · simp [h.built.noSuccessors _ hge] at hn
  | back =>
    simp only [follow] at hfollow
    split at hfollow
    · cases hfollow
    · simp only [Option.ite_none_right_eq_some, Opcode.isRet, decide_eq_true_eq] at hfollow
      exact absurd (hraise.symm.trans hfollow.1) (by simp)
  | caught guard => exact hturn guard rfl

/-- Where control only flows to, no frame with a return address on the stack is stored. -/
theorem noLeader_of_covers (htracked : Tracked g [] [] s) (hstored : s.inputs.get? n k = some f)
    (hcovers : f.Covers c.hierarchy out) (hclear : out.Clear) (r : Nat) :
    (g.region r).leader ≠ some n := by
  intro hleader
  obtain ⟨calls, -, hstanding⟩ := htracked.stored n k f hstored
  cases hstanding.fits with
  | begins _ top =>
    have hf := hcovers.keeps.clear hclear
    cases hf (.returnAddress _) (top ▸ List.mem_cons_self)
  | inside noLeader => exact noLeader r hleader

/-- The calls that are open at a point of a path, with the regions they entered, and where their
return addresses are in a frame that is stored there. -/
structure Placed (g : FlowGraph) (p : Point) (f : Frame) (calls : List OpenCall) : Prop where
  sites : p.calls = calls.map OpenCall.site
  located : g.Located calls p.node
  fits : g.Fitting calls p.node f

/-- Where some calls are open, the context that others give is one of theirs. -/
theorem context_of_located (hg : g.Partitioned) (h : g.Located calls n)
    (h' : g.Located calls' n) : g.Context (calls.map OpenCall.site) (keyOf calls') := by
  cases h with
  | top owner =>
    cases h' with
    | top => rfl
    | under _ _ _ enters owner' =>
      cases owner.symm.trans owner'
      rw [hg.top] at enters
      cases enters
  | under _ _ target enters owner =>
    cases h' with
    | top owner' =>
      cases owner'.symm.trans owner
      rw [hg.top] at enters
      cases enters
    | under _ _ target' enters' owner' =>
      cases owner.symm.trans owner'
      cases enters.symm.trans enters'
      exact ⟨_, rfl, _, target', target⟩

section Turns

variable {k : CallKey} {q : Point} (h : Solved c g code s) (hplaced : Placed g p f calls)
  (hcheck : c.check (g.instruction p.node) f = .ok ())
  (hrun : c.run (g.instruction p.node) f = .ok out)
  (hout : s.outputs.get? p.node k = some out)
include h hplaced hcheck hrun hout

theorem exists_placed_flow (hfollow : g.follow p (.flow n) = some q) : ∃ k' next calls',
    g.Turns p k k' (.flow n) ∧ s.inputs.get? q.node k' = some next ∧
    next.Covers c.hierarchy out ∧ Placed g q next calls' := by
  have hg := h.ready.partitioned
  simp only [follow, Option.ite_none_right_eq_some, Option.some.injEq] at hfollow
  obtain ⟨hn, rfl⟩ := hfollow
  have hleft := left_of_run hg hplaced.located hplaced.fits hcheck hrun
  obtain ⟨next, hnext, hcovers⟩ :=
    h.fixed.successor _ _ _ hout (isRet_of_successor h.ready hn) n hn
  obtain ⟨-, r, howner, -⟩ := hplaced.located.slots hg
  cases hjsr : (g.instruction p.node).op.isJsr with
  | true =>
    obtain ⟨region, -, hleader⟩ := hg.call howner hjsr hn
    obtain ⟨vs, htop, hclear⟩ := hleft.called hjsr
    refine ⟨_, next, ⟨p.node, region⟩ :: calls, rfl, hnext, hcovers, by simp [hplaced.sites],
      .under hplaced.located hjsr hn hleader (hg.leader hleader).1, ?_⟩
    exact .of_keeps (.begins hleader htop hclear hleft.addressed) hcovers.keeps
  | false =>
    have hclear := hleft.clear hjsr
    refine ⟨_, next, calls, rfl, hnext, hcovers, by simp [hplaced.sites],
      hplaced.located.move ((hg.flow howner hjsr hn).trans howner.symm), ?_⟩
    exact .inside (noLeader_of_covers h.tracked hnext hcovers hclear)
      (hcovers.keeps.clear hclear) (hleft.addressed.of_keeps hcovers.keeps)

/-- A return ends the call under which its frame is stored, which is the innermost call of the path:
the variable of the subroutine holds the address of both. -/
theorem exists_placed_back (hstored : s.inputs.get? p.node k = some f)
    (hfollow : g.follow p .back = some q) : ∃ k' next calls',
    g.Turns p k k' .back ∧ s.inputs.get? q.node k' = some next ∧
    next.Covers c.hierarchy out ∧ Placed g q next calls' := by
  have hg := h.ready.partitioned
  have hsites := hplaced.sites
  simp only [follow] at hfollow
  split at hfollow
  · cases hfollow
  · next site outer hcalls =>
    simp only [Option.ite_none_right_eq_some, Option.map_eq_some_iff, toOption_eq_some] at hfollow
    obtain ⟨hret, target, htarget, rfl⟩ := hfollow
    have haction : (g.instruction p.node).action = .ret := of_decide_eq_true hret
    have hjsr : (g.instruction p.node).op.isJsr = false :=
      decide_eq_false fun hjsr => by simp [Instruction.action, hjsr] at haction
    have hleft := left_of_run hg hplaced.located hplaced.fits hcheck hrun
    simp only [run, haction, Except.ok.injEq] at hrun
    subst hrun
    obtain ⟨call, rest, rfl, haddress⟩ :=
      address_of_ret hg hplaced.located hleft.addressed hcheck hret
    obtain ⟨⟩ := hcalls.symm.trans hsites
    obtain ⟨call', target', k', next, rfl, htarget', hnext, hcovers⟩ :=
      h.fixed.back _ _ _ hout hret
    -- The variable also holds the address of the call under which the frame is stored.
    obtain ⟨calls', hkey, hstanding⟩ := h.tracked.stored _ _ _ hstored
    have hidle : c.run (g.instruction p.node) f = .ok f := by simp only [run, haction]
    have hleft' := left_of_run hg hstanding.located hstanding.fits hcheck hidle
    obtain ⟨other, rest', rfl, haddress'⟩ :=
      address_of_ret hg hstanding.located hleft'.addressed hcheck hret
    cases hkey
    have hsame : other.site = call.site := by
      have heq := haddress.symm.trans haddress'
      simp only [Option.some.injEq, ValueType.returnAddress.injEq] at heq
      exact (h.ready.site_eq (hplaced.located.site_lt hg) (hstanding.located.site_lt hg)
        (by exact_mod_cast heq)).symm
    rw [hsame] at htarget' ⊢
    cases htarget.symm.trans htarget'
    have hrest : g.Located rest target := by
      have hlocated := hplaced.located
      cases hlocated with
      | under houter jsr =>
        obtain ⟨-, r, howner, -⟩ := houter.slots hg
        exact houter.move ((hg.resume howner jsr htarget).trans howner.symm)
    have hclear := hleft.clear hjsr
    refine ⟨k', next, rest, ⟨_, _, hcalls, rfl, ?_⟩, hnext, hcovers, rfl, hrest, ?_⟩
    · obtain ⟨calls'', rfl, hstanding'⟩ := h.tracked.stored _ _ _ hnext
      exact context_of_located hg hrest hstanding'.located
    · refine .inside (noLeader_of_covers h.tracked hnext hcovers hclear)
        (hcovers.keeps.clear hclear) (FlowGraph.Addressed.of_keeps ?_ hcovers.keeps)
      exact fun other hother => hleft.addressed other (List.mem_cons_of_mem call hother)

end Turns

theorem exists_placed_caught (h : Solved c g code s) (hstored : s.inputs.get? p.node k = some f)
    (hout : s.outputs.get? p.node k = some out) (hfollow : g.follow p (.caught guard) = some q) :
    ∃ k' next calls', g.Turns p k k' (.caught guard) ∧ s.inputs.get? q.node k' = some next ∧
      next.Covers c.hierarchy (caughtFrame guard f out) ∧ Placed g q next calls' := by
  simp only [follow, Option.ite_none_right_eq_some, Option.some.injEq] at hfollow
  obtain ⟨hguard, rfl⟩ := hfollow
  obtain ⟨next, hnext, hcovers⟩ := h.fixed.caught _ _ _ _ hstored hout guard hguard
  have howner : g.ownerOf guard.entry = some 0 :=
    h.ready.partitioned.handlers (CodeEdges.mem_guards hguard)
  have hclear : (caughtFrame guard f out).Clear := by
    simp [Frame.Clear, caughtFrame, Guard.caughtType, ValueType.isReturnAddress]
  exact ⟨_, next, [], rfl, hnext, hcovers, rfl, .top howner,
    .inside (noLeader_of_covers h.tracked hnext hcovers hclear) (hcovers.keeps.clear hclear)
      (by simp [FlowGraph.Addressed])⟩

theorem one_le_max_of_covers {h : Hierarchy} {next : Frame} (hfits : c.Fits next)
    (hcovers : next.Covers h (caughtFrame guard input out)) : 1 ≤ next.stack.max := by
  have hlength := hcovers.stack.length_eq
  have hslots := length_le_slotsOf next.stack.values
  have hroom := hfits.room
  simp only [caughtFrame, List.length_singleton] at hlength
  omega

/-- Where data flow has ended, there are stored frames along every path. -/
theorem exists_along (h : Solved c g code s) (hwalk : g.walk legs = some p) :
    ∃ k carried f calls, Along c g s legs p k carried f ∧ Placed g p f calls := by
  induction legs generalizing p with
  | nil =>
    cases hwalk
    obtain ⟨f, first, hf, hfirst, hcovers⟩ := h.fixed.entry
    have hclear : f.Clear := by simp [Frame.Clear, values_initialFrame hf]
    exact ⟨_, f, first, [], .start hf hfirst hcovers, rfl, .top h.ready.partitioned.entry,
      .inside (noLeader_of_covers h.tracked hfirst hcovers hclear) (hcovers.keeps.clear hclear)
        (by simp [FlowGraph.Addressed])⟩
  | cons leg before ih =>
    obtain ⟨node, turn⟩ := leg
    obtain ⟨last, hbefore, rfl, hfollow⟩ := walk_cons.1 hwalk
    obtain ⟨k, earlier, f, calls, halong, hplaced⟩ := ih hbefore
    have hstored := halong.stored
    obtain ⟨hcheck, out, hrun, hout⟩ := h.fixed.executed _ _ f hstored
    cases turn with
    | flow n =>
      obtain ⟨k', next, calls', hturns, hnext, hcovers, hplaced'⟩ :=
        exists_placed_flow h hplaced hcheck hrun hout hfollow
      exact ⟨k', out, next, calls',
        .turn halong hcheck hrun hout hfollow hturns rfl hnext hcovers, hplaced'⟩
    | back =>
      obtain ⟨k', next, calls', hturns, hnext, hcovers, hplaced'⟩ :=
        exists_placed_back h hplaced hcheck hrun hout hstored hfollow
      exact ⟨k', out, next, calls',
        .turn halong hcheck hrun hout hfollow hturns rfl hnext hcovers, hplaced'⟩
    | caught guard =>
      obtain ⟨k', next, calls', hturns, hnext, hcovers, hplaced'⟩ :=
        exists_placed_caught h hstored hout hfollow
      have hroom := one_le_max_of_covers (h.fits (.inl hnext)) hcovers
      rw [(h.fits (.inl hnext)).max, ← (h.fits (.inr hout)).max] at hroom
      have hcarries : Turn.frame (.caught guard) f out = .ok (caughtFrame guard f out) :=
        frame_eq_ok.2 (.inr ⟨guard, rfl, hroom, rfl⟩)
      exact ⟨k', _, next, calls',
        .turn halong hcheck hrun hout hfollow hturns hcarries hnext hcovers, hplaced'⟩

end MethodContext

/-! ### Accepted methods -/

section Accepted

variable {t : ClassTable} {options : VerifyOptions} {runId : String} {owner : Class} {m : Method}
  {verdict : Verdict} {prepared : PreparedCode} {g : FlowGraph}
  (hprepared : m.prepare owner.pool = .ok prepared)
  (hg : FlowGraph.build prepared.code m.handlers owner.pool options.strict = .ok g)
  (hcode : m.hasCode = true) (hverdict : verify t options runId owner m = .ok verdict)
  (haccepted : verdict.status = .accepted)
include hprepared hg hcode hverdict haccepted

theorem solve_of_accepted : ∃ s, (verifyTraced t options runId owner m).flow = some s ∧
    MethodContext.solve ⟨t, owner, m, prepared.type⟩ g = (s, .ok ()) := by
  rcases hsolve : MethodContext.solve ⟨t, owner, m, prepared.type⟩ g with ⟨s, r⟩
  unfold verify at hverdict
  simp only [verifyTraced, hcode, Bool.not_true, Bool.false_eq_true, if_false, hprepared, hg,
    hsolve] at hverdict ⊢
  split at hverdict
  · exact ⟨s, rfl, rfl⟩
  · cases hverdict
  · cases hverdict
    cases haccepted

theorem solved_of_accepted : ∃ s, (verifyTraced t options runId owner m).flow = some s ∧
    MethodContext.Solved ⟨t, owner, m, prepared.type⟩ g prepared.code s := by
  obtain ⟨s, hflow, hsolve⟩ := solve_of_accepted hprepared hg hcode hverdict haccepted
  exact ⟨s, hflow, .of_solve (.of_build hprepared hg) t.coherent hsolve⟩

end Accepted

end Bytecode
