import Bytecode.Proofs.Checking
import Bytecode.Proofs.OpenCalls
import Bytecode.Proofs.Regions
import Bytecode.Proofs.StoredFrames

/-!
Subroutine calls and returns in data flow.

A node is visited under a list of open calls. A return address is on the stack only where a
subroutine begins; from there on it is in the variable of the subroutine, and no variable of an open
call holds the address of another call.

Main statements: `Tracked.of_reaches`, the invariant of data flow, and `Leaving.goes`, a queued node
can always be left.
-/
namespace Bytecode

open Bytecode.Frame List ValueType

/-! ### Return addresses through merges -/

/-- The address that a subroutine returns to. -/
def ValueType.isReturnAddress : ValueType → Bool
  | .returnAddress _ => true
  | _ => false

variable {v a b d : ValueType} {h : Hierarchy} {i : Nat}

theorem ValueType.isReturnAddress_of_isReference (h : v.isReference = true) :
    v.isReturnAddress = false := by
  cases v <;> simp_all [isReference, isReturnAddress]

theorem ValueType.isReturnAddress_of_isPlain (h : v.isPlain = true) :
    v.isReturnAddress = false := by
  cases v <;> simp_all [isPlain, isReturnAddress]

/-- One stack entry becomes another: the same, or neither is a return address. -/
def StackKeeps (a d : ValueType) : Prop :=
  a = d ∨ (a.isReturnAddress = false ∧ d.isReturnAddress = false)

/-- One local variable becomes another: a return address there was there before. -/
def LocalKeeps (a d : ValueType) : Prop :=
  d.isReturnAddress = true → a = d

theorem keeps_of_mergeStackEntry (hd : h.mergeStackEntry i a b = .ok d) :
    StackKeeps a d ∧ StackKeeps b d := by
  rcases mergeStackEntry_ok hd with ⟨rfl, rfl⟩ | ⟨ha, hb, hd⟩
  · exact ⟨.inl rfl, .inl rfl⟩
  · have hd' := isReturnAddress_of_isReference (Hierarchy.isReference_join ha hb hd).1
    exact ⟨.inr ⟨isReturnAddress_of_isReference ha, hd'⟩,
      .inr ⟨isReturnAddress_of_isReference hb, hd'⟩⟩

theorem keeps_of_mergeLocal (hd : h.mergeLocal i a b = .ok d) :
    LocalKeeps a d ∧ LocalKeeps b d := by
  have hnone : ∀ {x y : ValueType}, y.isReturnAddress = false → LocalKeeps x y := by
    intro x y hy hy'
    rw [hy] at hy'
    cases hy'
  rcases mergeLocal_ok hd with ⟨rfl, rfl⟩ | rfl | ⟨he, rfl⟩ | ⟨ha, hb, hd⟩
  · exact ⟨fun _ => rfl, fun _ => rfl⟩
  · exact ⟨hnone rfl, hnone rfl⟩
  · refine ⟨fun hra => ?_, fun _ => rfl⟩
    unfold asInitialized at he
    split at he
    · subst he
      cases hra
    · exact he
  · have hd' := isReturnAddress_of_isReference (Hierarchy.isReference_join ha hb hd).1
    exact ⟨hnone hd', hnone hd'⟩

namespace Frame

variable {h : Hierarchy} {f g m : Frame}

/-- The return addresses of a frame `m` come from a frame `f`, and those on the stack are all
there. -/
structure Keeps (f m : Frame) : Prop where
  stack : Forall₂ StackKeeps f.stack.values m.stack.values
  locals : Forall₂ LocalKeeps f.locals.toList m.locals.toList

@[refl] theorem Keeps.refl (f : Frame) : f.Keeps f where
  stack := List.forall₂_same.2 fun _ _ => .inl rfl
  locals := List.forall₂_same.2 fun _ _ _ => rfl

theorem keeps_merge {e : Except Failure Bool} (hm : merge h f g = (m, e)) : f.Keeps m := by
  have hentry : ∀ a d, (a = d ∨ ∃ i b, g.Has b ∧ h.mergeStackEntry i a b = .ok d) →
      StackKeeps a d := by
    rintro a d (rfl | ⟨i, b, -, hd⟩)
    · exact .inl rfl
    · exact (keeps_of_mergeStackEntry hd).1
  have hlocal : ∀ a d, (a = d ∨ ∃ i b, g.Has b ∧ h.mergeLocal i a b = .ok d) →
      LocalKeeps a d := by
    rintro a d (rfl | ⟨i, b, -, hd⟩)
    · exact fun _ => rfl
    · exact (keeps_of_mergeLocal hd).1
  obtain ⟨hstack, hlocals⟩ := merge_fst hm hentry hlocal
  exact ⟨hstack, hlocals⟩

theorem keeps_merge_right {changed : Bool} (hm : merge h f g = (m, .ok changed)) : g.Keeps m := by
  obtain ⟨⟨-, hstack⟩, ⟨-, hlocals⟩, -⟩ := merge_eq_ok hm
    (fun _ _ _ _ => keeps_of_mergeStackEntry) fun _ _ _ _ => keeps_of_mergeLocal
  exact ⟨hstack, hlocals⟩

theorem Covers.keeps (hm : m.Covers h f) : f.Keeps m where
  stack := hm.stack.imp fun a d had => by
    rcases had.eq_or_reference with rfl | ⟨ha, name, rfl⟩
    · exact .inl rfl
    · exact .inr ⟨isReturnAddress_of_isReference ha, rfl⟩
  locals := hm.locals.imp fun a d had hd => by
    rcases had with rfl | had | ⟨-, had⟩
    · cases hd
    · rcases had.eq_or_reference with rfl | ⟨-, name, rfl⟩
      · rfl
      · cases hd
    · rcases had.eq_or_reference with rfl | ⟨-, name, rfl⟩
      · cases hd
      · cases hd

/-- No return address is on the stack. -/
def Clear (f : Frame) : Prop :=
  ∀ v ∈ f.stack.values, v.isReturnAddress = false

theorem clear_of_forall₂ {l l' : List ValueType} (h : Forall₂ StackKeeps l l')
    (hl : ∀ v ∈ l, v.isReturnAddress = false) : ∀ v ∈ l', v.isReturnAddress = false := by
  induction h with
  | nil => simp
  | cons had _ ih =>
    intro v hv
    rcases mem_cons.1 hv with rfl | hv
    · rcases had with rfl | ⟨-, hd⟩
      · exact hl _ mem_cons_self
      · exact hd
    · exact ih (fun u hu => hl u (mem_cons_of_mem _ hu)) v hv

theorem Keeps.clear (hk : f.Keeps m) (hf : f.Clear) : m.Clear :=
  clear_of_forall₂ hk.stack hf

theorem Keeps.getElem?_locals (hk : f.Keeps m) {x : Int}
    (hm : m.locals[i]? = some (.returnAddress x)) : f.locals[i]? = some (.returnAddress x) := by
  obtain ⟨hi, hx⟩ := Array.getElem?_eq_some_iff.1 hm
  have hi' : i < f.locals.toList.length := by
    rw [hk.locals.length_eq]
    exact hi
  have hkeeps := hk.locals.get hi' hi
  simp only [get_eq_getElem, Array.getElem_toList, hx] at hkeeps
  rw [← Array.getElem?_toList, getElem?_eq_getElem hi']
  exact congrArg some (hkeeps rfl)

end Frame

/-! ### Frames under open calls -/

namespace FlowGraph

variable {g : FlowGraph} {call : OpenCall} {calls : List OpenCall} {n : Nat} {f m : Frame}

/-- A return address in the variable of an open call is that of the call. -/
def Addressed (g : FlowGraph) (calls : List OpenCall) (f : Frame) : Prop :=
  ∀ call ∈ calls, ∀ x, f.locals[g.slot call]? = some (.returnAddress x) →
    x = (g.instruction call.site).next

/-- Where the return addresses are in a frame on entry of a node under open calls: the one of the
innermost call is on the stack where a subroutine begins. -/
inductive Fitting (g : FlowGraph) : List OpenCall → Nat → Frame → Prop
  | begins {call : OpenCall} {calls : List OpenCall} {n : Nat} {f : Frame} {vs : List ValueType}
      (leader : (g.region call.region).leader = some n)
      (top : f.stack.values = .returnAddress (g.instruction call.site).next :: vs)
      (clear : ∀ v ∈ vs, v.isReturnAddress = false) (addressed : g.Addressed calls f) :
      Fitting g (call :: calls) n f
  | inside {calls : List OpenCall} {n : Nat} {f : Frame}
      (noLeader : ∀ r, (g.region r).leader ≠ some n) (clear : f.Clear)
      (addressed : g.Addressed calls f) : Fitting g calls n f

theorem Addressed.of_keeps (hf : g.Addressed calls f) (hk : f.Keeps m) : g.Addressed calls m :=
  fun call hcall x hx => hf call hcall x (hk.getElem?_locals hx)

theorem Fitting.of_keeps (hf : g.Fitting calls n f) (hk : f.Keeps m) : g.Fitting calls n m := by
  cases hf with
  | begins leader top clear addressed =>
    have hstack := hk.stack
    rw [top] at hstack
    cases hm : m.stack.values with
    | nil =>
      rw [hm] at hstack
      cases hstack
    | cons d l =>
      rw [hm] at hstack
      cases hstack with
      | cons had hrest =>
        rcases had with rfl | ⟨ha, -⟩
        · exact .begins leader hm (clear_of_forall₂ hrest clear) (addressed.of_keeps hk)
        · cases ha
  | inside noLeader clear addressed =>
    exact .inside noLeader (hk.clear clear) (addressed.of_keeps hk)

/-- A frame without return addresses on the stack cannot be merged where a subroutine begins. -/
theorem Fitting.not_merge {f' : Frame} (hf : g.Fitting calls n f) {r : Nat}
    (hleader : (g.region r).leader = some n) (hf' : f'.Clear) {changed : Bool} :
    merge h f f' ≠ (m, .ok changed) := by
  intro hm
  cases hf with
  | begins leader top =>
    have hfit := Fitting.of_keeps (.begins leader top ‹_› ‹_›) (keeps_merge hm)
    have hclear := (keeps_merge_right hm).clear hf'
    cases hfit with
    | begins _ top' =>
      have htop := hclear (.returnAddress _) (top' ▸ mem_cons_self)
      cases htop
    | inside noLeader => exact noLeader r hleader
  | inside noLeader => exact noLeader r hleader

end FlowGraph

/-! ### Instructions -/

namespace MethodContext

open FlowGraph (OpenCall)

variable {c : MethodContext} {g : FlowGraph} {call : OpenCall} {calls : List OpenCall}
  {ins : Instruction} {f out : Frame}

/-- A subroutine begins by moving its return address to its variable. -/
theorem clear_of_store {vs : List ValueType} (hstores : CodeEdges.storesReference ins = true)
    (hslot : g.slot call = ins.index) (hfresh : g.slot call ∉ calls.map g.slot)
    (htop : f.stack.values = .returnAddress (g.instruction call.site).next :: vs)
    (hclear : ∀ v ∈ vs, v.isReturnAddress = false) (haddressed : g.Addressed calls f)
    (hrun : c.run ins f = .ok out) : out.Clear ∧ g.Addressed (call :: calls) out := by
  unfold CodeEdges.storesReference at hstores
  split at hstores
  · next slot haction =>
    simp only [run, haction] at hrun
    obtain ⟨t, values, htop', hlt, -, rfl⟩ := store_eq_ok.1 hrun
    rw [htop] at htop'
    cases htop'
    refine ⟨hclear, fun other hother x hx => ?_⟩
    have hlocals : storedLocals f.locals ins.index (.returnAddress (g.instruction call.site).next) =
        f.locals.setIfInBounds ins.index (.returnAddress (g.instruction call.site).next) := by
      simp [storedLocals, size]
    simp only [hlocals] at hx
    by_cases hsame : g.slot other = ins.index
    · rw [hsame, Array.getElem?_setIfInBounds_self_of_lt hlt] at hx
      cases hx
      rcases mem_cons.1 hother with rfl | hother
      · rfl
      · exact absurd (mem_map.2 ⟨other, hother, hsame.trans hslot.symm⟩) hfresh
    · rw [Array.getElem?_setIfInBounds_ne (Ne.symm hsame)] at hx
      rcases mem_cons.1 hother with rfl | hother
      · exact absurd hslot hsame
      · exact haddressed other hother x hx
  · cases hstores

theorem isReturnAddress_of_loads {kind : Kind} (h : kind.Loads v) : v.isReturnAddress = false := by
  cases v with
  | returnAddress x =>
    cases kind with
    | reference => cases h
    | numeric n => cases n <;> cases h
  | _ => rfl

/-- Instructions other than calls leave no return address on the stack and make none in the local
variables, if there is none on the stack. -/
theorem clear_of_effect (hclear : f.Clear) (haddressed : g.Addressed calls f)
    (hload : ∀ kind i v, ins.action = .load kind i → f.locals[ins.index]? = some v →
      v.isReturnAddress = false) (hjsr : ins.action ≠ .jsr) (he : Effect c ins f out) :
    out.Clear ∧ g.Addressed calls out := by
  cases he with
  | values source =>
    refine ⟨fun v hv => ?_, haddressed⟩
    rcases source v hv with hold | hmade | ⟨kind, i, haction, hv⟩ | ⟨-, name, -, rfl⟩
    · exact hclear v hold
    · exact isReturnAddress_of_isPlain hmade.isPlain
    · exact hload kind i v haction hv
    · rfl
  | call action => exact absurd action hjsr
  | @store _ _ t vs _ top =>
    refine ⟨fun v hv => hclear v (top ▸ mem_cons_of_mem _ hv), fun other hother x hx => ?_⟩
    have ht : t.isReturnAddress = false := hclear t (top ▸ mem_cons_self)
    rcases getElem?_storedLocals hx with hx | rfl | hx
    · exact haddressed other hother x hx
    · cases ht
    · cases hx
  | @construct _ _ _ marker vs _ _ _ _ source =>
    have hstep : ∀ u x, (if u = marker then marker.initialized else u) = .returnAddress x →
        u = .returnAddress x := by
      intro u x hu
      split at hu
      · cases hu
      · exact hu
    refine ⟨fun v hv => ?_, fun other hother x hx => ?_⟩
    · rcases source v hv with hmem | hmade
      · obtain ⟨u, humem, hu⟩ := mem_map.1 hmem
        cases v with
        | returnAddress x =>
          have hu' := hclear u humem
          rw [hstep u x hu] at hu'
          cases hu'
        | _ => rfl
      · exact isReturnAddress_of_isPlain hmade.isPlain
    · simp only [withValues_locals, initializeObject, Array.getElem?_map,
        Option.map_eq_some_iff] at hx
      obtain ⟨u, hu, hux⟩ := hx
      exact haddressed other hother x (hstep u x hux ▸ hu)

/-- Where the return addresses are in a frame on exit of a node under open calls: on the stack after
a call, and else only in variables. -/
structure Left (g : FlowGraph) (calls : List OpenCall) (ins : Instruction) (out : Frame) :
    Prop where
  addressed : g.Addressed calls out
  clear : ins.op.isJsr = false → out.Clear
  called : ins.op.isJsr = true → ∃ vs, out.stack.values = .returnAddress ins.next :: vs ∧
    ∀ v ∈ vs, v.isReturnAddress = false

theorem left_of_run {n : Nat} (hg : g.Partitioned) (hlocated : g.Located calls n)
    (hfit : g.Fitting calls n f) (hcheck : c.check (g.instruction n) f = .ok ())
    (hrun : c.run (g.instruction n) f = .ok out) : Left g calls (g.instruction n) out := by
  cases hfit with
  | @begins call calls _ _ vs leader top clear addressed =>
    obtain ⟨-, hstores, hslot⟩ := hg.leader leader
    have hslot' : g.slot call = (g.instruction n).index := by
      rw [FlowGraph.slot, hslot]
      rfl
    have hfresh : g.slot call ∉ calls.map g.slot := (nodup_cons.1 (hlocated.slots hg).1).1
    obtain ⟨hclear, haddressed⟩ :=
      clear_of_store hstores hslot' hfresh top clear addressed hrun
    refine ⟨haddressed, fun _ => hclear, fun hjsr => ?_⟩
    -- What begins a subroutine stores a reference and calls nothing.
    unfold CodeEdges.storesReference at hstores
    simp only [Opcode.isJsr, decide_eq_true_eq] at hjsr
    simp [Instruction.action, hjsr] at hstores
  | inside noLeader clear addressed =>
    by_cases hjsr : (g.instruction n).action = .jsr
    · have hjsr' : (g.instruction n).op.isJsr = true := decide_eq_true hjsr
      simp only [run, hjsr] at hrun
      obtain ⟨-, -, rfl⟩ := push_eq_ok.1 hrun
      refine ⟨addressed, fun hno => ?_, fun _ => ⟨_, rfl, clear⟩⟩
      rw [hjsr'] at hno
      cases hno
    · have hload : ∀ kind i v, (g.instruction n).action = .load kind i →
          f.locals[(g.instruction n).index]? = some v → v.isReturnAddress = false := by
        intro kind i v haction hv
        simp only [check, bind_eq_ok, exists_unit, checkValues, haction] at hcheck
        obtain ⟨-, got, hgot, -, hloads⟩ := checkLoad_eq_ok.1 hcheck.2
        cases hv.symm.trans hgot
        exact isReturnAddress_of_loads hloads
      obtain ⟨hclear, haddressed⟩ := clear_of_effect clear addressed hload hjsr (effect_run hrun)
      exact ⟨haddressed, fun _ => hclear, fun hyes => absurd (of_decide_eq_true hyes) hjsr⟩

/-! ### The invariant of a run -/

variable {tasks : List Task} {queue : List WorkItem} {s s' : FlowState} {n : Nat}

/-- The context of a node under open calls. -/
def keyOf : List OpenCall → CallKey
  | [] => .topLevel
  | call :: _ => .call call.site

/-- A frame is stored where each of some subroutines began, in the context of its call. -/
def Begun (g : FlowGraph) (s : FlowState) (calls : List OpenCall) : Prop :=
  ∀ call ∈ calls, ∃ leader f, (g.region call.region).leader = some leader ∧
    s.inputs.get? leader (.call call.site) = some f

/-- A node stands under open calls, and the frame stored on its entry fits. -/
structure Standing (g : FlowGraph) (s : FlowState) (calls : List OpenCall) (n : Nat)
    (f : Frame) : Prop where
  located : g.Located calls n
  begun : Begun g s calls
  stored : s.inputs.get? n (keyOf calls) = some f
  fits : g.Fitting calls n f

/-- A frame arrives at a node under open calls: by a call, or else without a return address on the
stack. -/
inductive Arriving (g : FlowGraph) (s : FlowState) : List OpenCall → Nat → Frame → Prop
  | call {call : OpenCall} {calls : List OpenCall} {n : Nat} {f : Frame}
      (leader : (g.region call.region).leader = some n) (begun : Begun g s calls)
      (fits : g.Fitting (call :: calls) n f) : Arriving g s (call :: calls) n f
  | flow {calls : List OpenCall} {n : Nat} {f : Frame} (begun : Begun g s calls)
      (clear : f.Clear) (addressed : g.Addressed calls f) : Arriving g s calls n f

/-- A frame may arrive at a node under the open calls of a chain. -/
def MayArrive (g : FlowGraph) (s : FlowState) (chain : CallChain) (n : Nat) (f : Frame) : Prop :=
  ∃ calls, chain.openCalls = calls.map OpenCall.site ∧ g.Located calls n ∧
    Arriving g s calls n f

theorem key_eq_keyOf {chain : CallChain} {calls : List OpenCall}
    (h : chain.openCalls = calls.map OpenCall.site) : chain.key = keyOf calls := by
  cases calls <;> simp [CallChain.key, CallChain.openCall?_eq_head?, h, keyOf]

/-- Frames stay stored, and what is stored anew makes no return addresses. -/
structure Advances (s s' : FlowState) : Prop where
  keeps : ∀ n k f, s.inputs.get? n k = some f →
    ∃ f', s'.inputs.get? n k = some f' ∧ f.Keeps f'

theorem Begun.advance (h : Begun g s calls) (hs : Advances s s') : Begun g s' calls := by
  intro call hcall
  obtain ⟨leader, f, hleader, hf⟩ := h call hcall
  obtain ⟨f', hf', -⟩ := hs.keeps _ _ f hf
  exact ⟨leader, f', hleader, hf'⟩

theorem Standing.advance (h : Standing g s calls n f) (hs : Advances s s') :
    ∃ f', Standing g s' calls n f' := by
  obtain ⟨f', hf', hkeeps⟩ := hs.keeps _ _ f h.stored
  exact ⟨f', h.located, h.begun.advance hs, hf', h.fits.of_keeps hkeeps⟩

theorem Arriving.advance (h : Arriving g s calls n f) (hs : Advances s s') :
    Arriving g s' calls n f := by
  cases h with
  | call leader begun fits => exact .call leader (begun.advance hs) fits
  | flow begun clear addressed => exact .flow (begun.advance hs) clear addressed

theorem MayArrive.advance {chain : CallChain} (h : MayArrive g s chain n f) (hs : Advances s s') :
    MayArrive g s' chain n f := by
  obtain ⟨calls, hcalls, hlocated, harriving⟩ := h
  exact ⟨calls, hcalls, hlocated, harriving.advance hs⟩

/-- Where a subroutine begins, its call is the innermost. -/
theorem exists_call_of_leader {r : Nat} (hg : g.Partitioned) (hlocated : g.Located calls n)
    (hleader : (g.region r).leader = some n) : ∃ site outer, calls = ⟨site, r⟩ :: outer := by
  have howner := (hg.leader hleader).1
  cases hlocated with
  | top owner =>
    cases howner.symm.trans owner
    rw [hg.top] at hleader
    cases hleader
  | @under outer site leader r' _ _ _ _ _ owner =>
    cases howner.symm.trans owner
    exact ⟨site, outer, rfl⟩

/-- The frame that a node is run on fits the open calls under which a frame has arrived. -/
theorem Arriving.fits {new : Frame} (hg : g.Partitioned) (hlocated : g.Located calls n)
    (harriving : Arriving g s calls n f)
    (hstored : ∀ old, s.inputs.get? n (keyOf calls) = some old → ∃ calls', g.Fitting calls' n old)
    (hnew : Arrives h (s.inputs.get? n (keyOf calls)) f new) : g.Fitting calls n new := by
  cases harriving with
  | call leader begun fits =>
    cases hnew with
    | first => exact fits
    | grown _ hmerge => exact fits.of_keeps (keeps_merge_right hmerge)
  | flow begun clear addressed =>
    by_cases hleader : ∃ r, (g.region r).leader = some n
    · -- The frame stored where the subroutine began has a return address on the stack.
      obtain ⟨r, hleader⟩ := hleader
      obtain ⟨site, outer, rfl⟩ := exists_call_of_leader hg hlocated hleader
      obtain ⟨leader, old, hleader', hold⟩ := begun ⟨site, r⟩ mem_cons_self
      cases hleader.symm.trans hleader'
      have hold' : s.inputs.get? n (keyOf (⟨site, r⟩ :: outer)) = some old := hold
      cases hnew with
      | first hnone =>
        rw [hold'] at hnone
        cases hnone
      | grown hsome hmerge =>
        obtain ⟨calls', hfit⟩ := hstored _ hsome
        exact absurd hmerge (hfit.not_merge hleader clear)
    · have hno : ∀ r, (g.region r).leader ≠ some n := fun r hr => hleader ⟨r, hr⟩
      cases hnew with
      | first => exact .inside hno clear addressed
      | grown _ hmerge =>
        have hkeeps := keeps_merge_right hmerge
        exact .inside hno (hkeeps.clear clear) (addressed.of_keeps hkeeps)

/-- The invariant of a run: every stored frame, queued node and execution due stands under open
calls. -/
structure Tracked (g : FlowGraph) (tasks : List Task) (queue : List WorkItem) (s : FlowState) :
    Prop where
  stored : ∀ n k f, s.inputs.get? n k = some f →
    ∃ calls, keyOf calls = k ∧ Standing g s calls n f
  queued : ∀ item ∈ queue, ∃ calls f,
    item.chain.openCalls = calls.map OpenCall.site ∧ Standing g s calls item.node f
  due : ∀ task ∈ tasks, ∀ s₀ f, task.frame g s₀ = .ok f → MayArrive g s task.chain task.node f

namespace Tracked

theorem empty (g : FlowGraph) : Tracked g [] [] (startState g) where
  stored := by simp [startState]
  queued := by simp
  due := by simp

theorem start (hg : g.Partitioned) (hf : c.initialFrame = .ok f) :
    Tracked g [.flow 0 f .empty] [] (startState g) where
  stored := (empty g).stored
  queued := by simp
  due := by
    intro task htask
    rw [mem_singleton.1 htask]
    rintro s₀ _ ⟨⟩
    exact ⟨[], rfl, .top hg.entry, .flow (by simp [Begun])
      (by simp [Frame.Clear, values_initialFrame hf]) (by simp [FlowGraph.Addressed])⟩

/-- What an execution does to the frames on entry: nothing, or it stores one that keeps the return
addresses of the one before, and that has arrived if there was none or the node is run. -/
theorem stores {key : CallKey} {r : Except Failure Bool}
    (h : Executed c g n f key s s' r) :
    (s'.inputs = s.inputs ∧ r ≠ .ok true) ∨ ∃ new, s'.inputs = s.inputs.insert n key new ∧
      (∀ old, s.inputs.get? n key = some old → old.Keeps new) ∧
      (s.inputs.get? n key = none ∨ r = .ok true →
        Arrives c.hierarchy (s.inputs.get? n key) f new) := by
  have harrives : ∀ {new}, Arrives c.hierarchy (s.inputs.get? n key) f new →
      ∀ old, s.inputs.get? n key = some old → old.Keeps new := by
    intro new hnew old hold
    cases hnew with
    | first hnone =>
      rw [hold] at hnone
      cases hnone
    | grown hsome hmerge =>
      cases hold.symm.trans hsome
      exact keeps_merge hmerge
  cases h with
  | absorbed _ _ inputs => exact .inl ⟨inputs, by simp⟩
  | @clash old merged e stored merge inputs =>
    refine .inr ⟨merged, inputs, fun other hother => ?_, by simp [stored]⟩
    cases stored.symm.trans hother
    exact keeps_merge merge
  | refused arrives _ inputs => exact .inr ⟨_, inputs, harrives arrives, fun _ => arrives⟩
  | broken arrives _ _ inputs => exact .inr ⟨_, inputs, harrives arrives, fun _ => arrives⟩
  | ran arrives _ _ inputs => exact .inr ⟨_, inputs, harrives arrives, fun _ => arrives⟩

theorem standing {task : Task} {new : Frame} (hg : g.Partitioned)
    (hs : Stored c g (task :: tasks) s) (h : Tracked g (task :: tasks) queue s)
    (hlocated : g.Located calls task.node) (harriving : Arriving g s calls task.node f)
    (hkey : task.chain.key = keyOf calls) (hadvances : Advances s s')
    (hinputs : s'.inputs = s.inputs.insert task.node task.chain.key new)
    (hnew : Arrives c.hierarchy (s.inputs.get? task.node task.chain.key) f new) :
    Standing g s' calls task.node new := by
  have hstored : s'.inputs.get? task.node (keyOf calls) = some new := by
    rw [hs.get?_inputs hinputs, if_pos ⟨rfl, hkey⟩]
  rw [hkey] at hnew
  refine ⟨hlocated, ?_, hstored, harriving.fits hg hlocated (fun old hold => ?_) hnew⟩
  · cases harriving with
    | @call call calls _ _ leader begun fits =>
      intro other hother
      rcases mem_cons.1 hother with rfl | hother
      · exact ⟨task.node, new, leader, hstored⟩
      · exact begun.advance hadvances other hother
    | flow begun => exact begun.advance hadvances
  · obtain ⟨calls', -, hstanding⟩ := h.stored _ _ old hold
    exact ⟨calls', hstanding.fits⟩

/-- The invariant after an execution, whether or not it succeeds. -/
theorem step {task : Task} {r : Except Failure Bool} (hg : g.Partitioned)
    (hs : Stored c g (task :: tasks) s) (h : Tracked g (task :: tasks) queue s)
    (hf : task.frame g s = .ok f) (hexec : Executed c g task.node f task.chain.key s s' r) :
    Tracked g tasks (queue ++ MethodContext.queued task (r = .ok true)) s' := by
  obtain ⟨calls, hcalls, hlocated, harriving⟩ := h.due task mem_cons_self s f hf
  have hkey := key_eq_keyOf hcalls
  have hdue : Advances s s' → ∀ t ∈ tasks, ∀ s₀ f, t.frame g s₀ = .ok f →
      MayArrive g s' t.chain t.node f := fun hadvances t ht s₀ f hf =>
    (h.due t (mem_cons_of_mem task ht) s₀ f hf).advance hadvances
  rcases stores hexec with ⟨hinputs, hr⟩ | ⟨new, hinputs, hkeeps, harrives⟩
  · have hadvances : Advances s s' := ⟨fun n k f hf => ⟨f, hinputs ▸ hf, .refl f⟩⟩
    refine ⟨fun n k x hx => ?_, fun item hitem => ?_, hdue hadvances⟩
    · rw [hinputs] at hx
      obtain ⟨calls', hkey', hstanding⟩ := h.stored n k x hx
      exact ⟨calls', hkey', hstanding.located, hstanding.begun.advance hadvances,
        hinputs ▸ hstanding.stored, hstanding.fits⟩
    · simp only [hr, decide_false, MethodContext.queued, Bool.false_eq_true, if_false,
        append_nil] at hitem
      obtain ⟨calls', x, hcalls', hstanding⟩ := h.queued item hitem
      obtain ⟨x', hstanding'⟩ := hstanding.advance hadvances
      exact ⟨calls', x', hcalls', hstanding'⟩
  · have hget := hs.get?_inputs hinputs
    have hadvances : Advances s s' := by
      refine ⟨fun n k x hx => ?_⟩
      rw [hget]
      split
      · next he =>
        obtain ⟨rfl, rfl⟩ := he
        exact ⟨new, rfl, hkeeps x hx⟩
      · exact ⟨x, hx, .refl x⟩
    have hstanding := fun hnew => h.standing hg hs hlocated harriving hkey hadvances hinputs
      (harrives hnew)
    refine ⟨fun n k x hx => ?_, fun item hitem => ?_, hdue hadvances⟩
    · cases hold : s.inputs.get? n k with
      | some old =>
        obtain ⟨calls', rfl, hstanding'⟩ := h.stored n k old hold
        obtain ⟨x', hx'⟩ := hstanding'.advance hadvances
        cases hx.symm.trans hx'.stored
        exact ⟨calls', rfl, hx'⟩
      | none =>
        rw [hget, hold] at hx
        split at hx
        · next he =>
          obtain ⟨rfl, rfl⟩ := he
          cases hx
          exact ⟨calls, hkey.symm, hstanding (.inl hold)⟩
        · cases hx
    · rcases mem_append.1 hitem with hitem | hitem
      · obtain ⟨calls', x, hcalls', hstanding'⟩ := h.queued item hitem
        obtain ⟨x', hstanding'⟩ := hstanding'.advance hadvances
        exact ⟨calls', x', hcalls', hstanding'⟩
      · by_cases hr : r = .ok true
        · simp only [hr, decide_true, MethodContext.queued, if_true, mem_singleton] at hitem
          rw [hitem]
          exact ⟨calls, new, hcalls, hstanding (.inr hr)⟩
        · simp [hr, MethodContext.queued] at hitem

end Tracked

/-! ### Leaving a node -/

section Leaving

variable {code : Array Instruction} {table : List Handler} {pool : ConstantPool}
  {item : WorkItem} {chain : CallChain}

theorem address_of_ret (hg : g.Partitioned) (hlocated : g.Located calls n)
    (haddressed : g.Addressed calls f) (hcheck : c.check (g.instruction n) f = .ok ())
    (hret : (g.instruction n).op.isRet = true) : ∃ call outer, calls = call :: outer ∧
      f.locals[(g.instruction n).index]? =
        some (.returnAddress (g.instruction call.site).next) := by
  have haction : (g.instruction n).action = .ret := of_decide_eq_true hret
  simp only [check, bind_eq_ok, exists_unit, checkValues, haction] at hcheck
  obtain ⟨x, hx⟩ := checkRet_eq_ok.1 hcheck.2
  cases hlocated with
  | top owner =>
    obtain ⟨m, hm, -⟩ := hg.back owner hret
    rw [hg.top] at hm
    cases hm
  | @under outer site leader r _ _ _ _ enters owner =>
    refine ⟨⟨site, r⟩, outer, rfl, ?_⟩
    obtain ⟨m, hm, hindex⟩ := hg.back owner hret
    have hslot : g.slot ⟨site, r⟩ = (g.instruction n).index := by
      rw [FlowGraph.slot, (hg.leader hm).2.2, hindex]
      rfl
    rw [hx, haddressed ⟨site, r⟩ mem_cons_self x (hslot ▸ hx)]

/-- What a queued node has: open calls, a frame on exit, and for a return the address of the
innermost call. -/
structure Leaving (g : FlowGraph) (s : FlowState) (item : WorkItem)
    (calls : List OpenCall) (out : Frame) : Prop where
  chain : item.chain.openCalls = calls.map OpenCall.site
  located : g.Located calls item.node
  begun : Begun g s calls
  output : s.outputs.get? item.node item.chain.key = some out
  left : Left g calls (g.instruction item.node) out
  address : (g.instruction item.node).op.isRet = true → ∃ call outer, calls = call :: outer ∧
    out.locals[(g.instruction item.node).index]? =
      some (.returnAddress (g.instruction call.site).next)

theorem Tracked.leaving (hg : g.Partitioned) (hs : Stored c g [] s)
    (h : Tracked g [] (item :: queue) s) : ∃ calls out, Leaving g s item calls out := by
  obtain ⟨calls, f, hcalls, hstanding⟩ := h.queued item mem_cons_self
  have hinput : s.inputs.get? item.node item.chain.key = some f := by
    rw [key_eq_keyOf hcalls]
    exact hstanding.stored
  obtain ⟨hcheck, out, hrun, hout⟩ := hs.executed _ _ f hinput
  have hleft := left_of_run hg hstanding.located hstanding.fits hcheck hrun
  refine ⟨calls, out, hcalls, hstanding.located, hstanding.begun, hout, hleft, fun hret => ?_⟩
  have haction : (g.instruction item.node).action = .ret := of_decide_eq_true hret
  simp only [run, haction, Except.ok.injEq] at hrun
  subst hrun
  exact address_of_ret hg hstanding.located hleft.addressed hcheck hret

/-- After a call the call is open, and else nothing changes. -/
theorem Leaving.of_static (hg : g.Partitioned) (h : Leaving g s item calls out)
    (hret : (g.instruction item.node).op.isRet = false) :
    ∃ chain, item.chain.extend item.node (g.instruction item.node).op.isJsr
        (g.instruction item.node).op.isRet = .ok chain ∧
      ∀ v ∈ g.successorsOf item.node, MayArrive g s chain v out := by
  obtain ⟨-, r, howner, -⟩ := h.located.slots hg
  cases hjsr : (g.instruction item.node).op.isJsr with
  | true =>
    refine ⟨_, rfl, fun v hv => ?_⟩
    obtain ⟨q, -, hleader⟩ := hg.call howner hjsr hv
    obtain ⟨vs, htop, hclear⟩ := h.left.called hjsr
    exact ⟨⟨item.node, q⟩ :: calls, by simp [CallChain.openCalls, h.chain],
      .under h.located hjsr hv hleader (hg.leader hleader).1,
      .call hleader h.begun (.begins hleader htop hclear h.left.addressed)⟩
  | false =>
    refine ⟨.step item.node item.chain item.chain.opened item.chain.length, by
      simp [CallChain.extend, hret], fun v hv => ?_⟩
    exact ⟨calls, (CallChain.openCalls_step ..).trans h.chain,
      h.located.move ((hg.flow howner hjsr hv).trans howner.symm),
      .flow h.begun (h.left.clear hjsr) h.left.addressed⟩

variable (hbuilt : g.toCodeEdges.Built code table pool) (hlaid : Laid code)

include hbuilt hlaid

theorem next_of_jsr (hn : n < g.size) (hjsr : (g.instruction n).op.isJsr = true) :
    g.next n = .ok (n + 1) := by
  refine (hbuilt.next_eq_of_not_endsFlow hlaid hn ?_).2
  simp [Opcode.endsFlow, of_decide_eq_true hjsr]

variable (hg : g.Partitioned)

include hg

theorem mem_returnTargets (hlocated : g.Located (call :: calls) n) :
    ∃ targets, g.returnTargets n = .ok targets ∧ call.site + 1 ∈ targets := by
  cases hlocated with
  | @under _ site leader r _ outer jsr target enters owner =>
    have hsite : site < g.size := outer.lt hg
    have hnext : ∀ caller ∈ (g.region r).callers, ∃ m, g.next caller = .ok m := by
      intro caller hcaller
      obtain ⟨hlt, hjsr, -⟩ := (hg.callers enters).1 hcaller
      exact ⟨_, next_of_jsr hbuilt hlaid hlt hjsr⟩
    obtain ⟨targets, htargets, hmem⟩ := exists_mapM_eq_ok hnext
    refine ⟨targets, ?_, hmem site ((hg.callers enters).2 ⟨hsite, jsr, target⟩) _
      (next_of_jsr hbuilt hlaid hsite jsr)⟩
    have howner : g.owner.getD n none = some r := owner
    simp only [FlowGraph.returnTargets, howner]
    rw [← FlowGraph.region, enters]
    simpa using htargets

/-- A return goes on after the innermost open call. -/
theorem returnTarget_eq (hlocated : g.Located (call :: calls) n)
    (hchain : chain.openCall? = some call.site)
    (hout : out.locals[(g.instruction n).index]? =
      some (.returnAddress (g.instruction call.site).next)) :
    g.next call.site = .ok (call.site + 1) ∧ returnTarget g n chain out = .ok (call.site + 1) := by
  obtain ⟨targets, htargets, hmem⟩ := mem_returnTargets hbuilt hlaid hg hlocated
  have hnext : g.next call.site = .ok (call.site + 1) := by
    cases hlocated with
    | under outer jsr => exact next_of_jsr hbuilt hlaid (outer.lt hg) jsr
  have hnode : g.node? (g.instruction call.site).next = some (call.site + 1) := by
    unfold CodeEdges.next CodeEdges.node at hnext
    split at hnext
    · next m hm =>
      cases hnext
      exact hm
    · cases hnext
  refine ⟨hnext, ?_⟩
  unfold returnTarget
  simp only [getLocal_eq_ok.2 hout, bind, Except.bind, hnode, hchain, hnext, htargets,
    ne_eq, not_true_eq_false, if_false]
  rw [if_pos (contains_iff_mem.2 hmem)]
  rfl

/-- After a return the innermost call is closed. -/
theorem Leaving.of_ret (h : Leaving g s item calls out)
    (hret : (g.instruction item.node).op.isRet = true) :
    ∃ site outer chain, item.chain.openCalls = site :: outer ∧ g.next site = .ok (site + 1) ∧
      item.chain.extend item.node (g.instruction item.node).op.isJsr
        (g.instruction item.node).op.isRet = .ok chain ∧
      chain.nodes = item.node :: item.chain.nodes ∧ chain.openCalls = outer ∧
      returnTarget g item.node item.chain out = .ok (site + 1) ∧
      MayArrive g s chain (site + 1) out := by
  obtain ⟨call, outer, rfl, haddress⟩ := h.address hret
  have hopen : item.chain.openCalls = call.site :: outer.map OpenCall.site := h.chain
  have hopen' : item.chain.openCall? = some call.site := by
    simp [CallChain.openCall?_eq_head?, hopen]
  have haction : (g.instruction item.node).action = .ret := of_decide_eq_true hret
  have hjsr : (g.instruction item.node).op.isJsr = false :=
    decide_eq_false fun hjsr => by simp [Instruction.action, hjsr] at haction
  obtain ⟨hnext, htarget⟩ := returnTarget_eq hbuilt hlaid hg h.located hopen' haddress
  obtain ⟨chain, hextend⟩ : ∃ chain, item.chain.extend item.node
      (g.instruction item.node).op.isJsr (g.instruction item.node).op.isRet = .ok chain :=
    CallChain.exists_extend item.node fun _ _ => by simp [hopen]
  obtain ⟨hnodes, -, hcalls⟩ := CallChain.extend_eq_ok hextend
  simp only [hjsr, hret, hopen, Bool.false_eq_true, if_false, if_true, tail_cons] at hcalls
  refine ⟨call.site, _, chain, hopen, hnext, hextend, hnodes, hcalls, htarget, outer, hcalls, ?_,
    .flow ?_ (h.left.clear hjsr) ?_⟩
  · have hlocated := h.located
    cases hlocated with
    | under houter jsr =>
      obtain ⟨-, r, howner, -⟩ := houter.slots hg
      exact houter.move ((hg.resume howner jsr hnext).trans howner.symm)
  · exact fun other hother => h.begun other (mem_cons_of_mem call hother)
  · exact fun other hother => h.left.addressed other (mem_cons_of_mem call hother)

theorem Leaving.goes (h : Leaving g s item calls out) :
    ∃ chain successors, leaving g item s = .ok (out, chain, successors) ∧
      ∀ v ∈ successors, MayArrive g s chain v out := by
  cases hret : (g.instruction item.node).op.isRet with
  | false =>
    obtain ⟨chain, hchain, harrive⟩ := h.of_static hg hret
    have hsucc : flowSuccessors g item.node item.chain out = .ok (g.successorsOf item.node) := by
      simp [flowSuccessors, hret]
    exact ⟨chain, _, leaving_eq_ok.2 ⟨h.output, hchain, hsucc⟩, harrive⟩
  | true =>
    obtain ⟨site, outer, chain, -, -, hchain, -, -, htarget, harrive⟩ :=
      h.of_ret hbuilt hlaid hg hret
    have hsucc : flowSuccessors g item.node item.chain out = .ok [site + 1] := by
      simp [flowSuccessors, hret, htarget, bind, Except.bind, pure, Except.pure]
    refine ⟨_, _, leaving_eq_ok.2 ⟨h.output, hchain, hsucc⟩, fun v hv => ?_⟩
    rw [mem_singleton.1 hv]
    exact harrive

theorem Tracked.visit (hs : Stored c g [] s) (h : Tracked g [] (item :: queue) s)
    {successors : List Nat} (hl : MethodContext.leaving g item s = .ok (out, chain, successors)) :
    Tracked g (dueTasks g item out chain successors) queue s := by
  obtain ⟨calls, out', hleaving⟩ := h.leaving hg hs
  obtain ⟨chain', successors', hl', harrive⟩ := hleaving.goes hbuilt hlaid hg
  cases hl.symm.trans hl'
  refine ⟨h.stored, fun other hother => h.queued other (mem_cons_of_mem item hother),
    fun task htask => ?_⟩
  rcases mem_append.1 htask with htask | htask
  · obtain ⟨v, hv, rfl⟩ := mem_map.1 htask
    rintro s₀ _ ⟨⟩
    exact harrive v hv
  · obtain ⟨guard, hguard, rfl⟩ := mem_map.1 htask
    intro s₀ f hf
    simp only [Task.frame, ite_eq_ok, reduceCtorEq, imp_false, known_eq_ok, handlerFrame,
      bind_eq_ok, pure_eq_ok, Stack.push_eq_ok] at hf
    obtain ⟨hroom, hf⟩ := hf
    obtain ⟨stack, ⟨-, -, rfl⟩, rfl⟩ := hf hroom
    exact ⟨[], rfl, .top (hg.handlers (CodeEdges.mem_guards hguard)), .flow (by simp [Begun])
      (by simp [Frame.Clear, Guard.caughtType, isReturnAddress]) (by simp [FlowGraph.Addressed])⟩

/-- The invariant holds at each moment of data flow. -/
theorem Tracked.of_reaches (h : Reaches c g tasks queue s) : Tracked g tasks queue s := by
  induction h with
  | start hf => exact .start hg hf
  | visit hreaches hl ih => exact ih.visit hbuilt hlaid hg (.of_reaches hbuilt hreaches) hl
  | @perform task tasks queue s s' f changed hreaches hf hexec ih =>
    have hstep := executed_execute hexec
    have htracked := ih.step hg (.of_reaches hbuilt hreaches) hf hstep
    cases changed <;> simpa using htracked

/-- It holds also where data flow fails. -/
theorem Tracked.of_fails {e : Failure} (h : Fails c g s e) :
    ∃ tasks queue, Tracked g tasks queue s := by
  cases h with
  | unsettled hreaches => exact ⟨_, _, .of_reaches hbuilt hlaid hg hreaches⟩
  | exit hreaches => exact ⟨_, _, .of_reaches hbuilt hlaid hg hreaches⟩
  | running hbreaks =>
    cases hbreaks with
    | initial => exact ⟨[], [], .empty g⟩
    | leaving hreaches => exact ⟨_, _, .of_reaches hbuilt hlaid hg hreaches⟩
    | frame hreaches => exact ⟨_, _, .of_reaches hbuilt hlaid hg hreaches⟩
    | @execute task tasks queue s s' f e hreaches hf hexec =>
      have hstep := executed_execute hexec
      exact ⟨_, _, (Tracked.of_reaches hbuilt hlaid hg hreaches).step hg
        (.of_reaches hbuilt hreaches) hf hstep⟩

end Leaving

end MethodContext

end Bytecode
