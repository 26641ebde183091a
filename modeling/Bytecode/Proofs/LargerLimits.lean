import Bytecode.Proofs.ClassOutlines
import Bytecode.Proofs.LargerFrames

/-!
Methods with larger limits.

The limits of a method are upper bounds and nothing else. So data flow over a method that is accepted
goes in the same way when its limits are larger: the same nodes are executed in the same order, on the
larger frames.

* `execute_enlarge`, `performAll_enlarge`, `settle_enlarge`: an execution, a visit and the loop over
  the queue;
* `verify_accepts_larger_limits`: so a method stays accepted when its limits get larger.
-/
namespace Bytecode

/-! ### Stored frames -/

namespace FrameTable

/-- The table with every frame changed. -/
def map (φ : Frame → Frame) (t : FrameTable) : FrameTable :=
  ⟨t.rows.map (List.map (Prod.map id φ))⟩

variable {φ : Frame → Frame} (t : FrameTable) (n : Nat) (key : CallKey)

theorem row_map : (t.map φ).row n = (t.row n).map (Prod.map id φ) := by
  simp only [row, map, Array.getD_eq_getD_getElem?, Array.getElem?_map]
  cases t.rows[n]? <;> rfl

theorem get?_map : (t.map φ).get? n key = (t.get? n key).map φ := by
  have hlookup : ∀ row : List (CallKey × Frame),
      (row.map (Prod.map id φ)).lookup key = (row.lookup key).map φ := by
    intro row
    induction row with
    | nil => rfl
    | cons entry row ih =>
      obtain ⟨k, f⟩ := entry
      simp only [List.map_cons, Prod.map_apply, id_eq, lookup_cons_eq_ite, ih]
      split <;> rfl
  rw [get?, get?, row_map, hlookup]

theorem insert_map (f : Frame) : (t.map φ).insert n key (φ f) = (t.insert n key f).map φ := by
  have hrow : ∀ row : List (CallKey × Frame), insertRow key (φ f) (row.map (Prod.map id φ)) =
        (insertRow key f row).map (Prod.map id φ) := by
    intro row
    induction row with
    | nil => rfl
    | cons entry row ih =>
      obtain ⟨k, old⟩ := entry
      simp only [List.map_cons, Prod.map_apply, id_eq, insertRow, ih]
      split
      · rfl
      · split <;> rfl
  simp only [insert, map, mk.injEq]
  refine Array.ext_getElem? fun i => ?_
  simp only [Array.getElem?_modify, Array.getElem?_map]
  split
  · cases t.rows[i]? with
    | none => rfl
    | some row => exact congrArg some (hrow row)
  · rfl

theorem empty_map (nodes : Nat) : (empty nodes).map φ = empty nodes := by
  simp [empty, map]

end FrameTable

/-- What was looked at, with larger limits. -/
def Visit.enlarge (room extra : Nat) (v : Visit) : Visit :=
  { v with frame := v.frame.enlarge room extra }

/-- What data flow knows, with larger limits in every frame. -/
def FlowState.enlarge (room extra : Nat) (s : FlowState) : FlowState :=
  { s with
    inputs := s.inputs.map (·.enlarge room extra)
    outputs := s.outputs.map (·.enlarge room extra)
    last := s.last.map (Visit.enlarge room extra) }

theorem FlowState.get?_inputs_enlarge (s : FlowState) (room extra n : Nat) (key : CallKey) :
    (s.enlarge room extra).inputs.get? n key =
      (s.inputs.get? n key).map (·.enlarge room extra) :=
  s.inputs.get?_map n key

theorem FlowState.get?_outputs_enlarge (s : FlowState) (room extra n : Nat) (key : CallKey) :
    (s.enlarge room extra).outputs.get? n key =
      (s.outputs.get? n key).map (·.enlarge room extra) :=
  s.outputs.get?_map n key

namespace MethodContext

variable {c : MethodContext} {g : FlowGraph} {code : Array Instruction} {f : Frame}
  {s s' : FlowState} {room extra : Nat}

theorem check_of_enlarge (ins : Instruction) :
    (c.enlarge room extra).check ins f = c.check ins f := rfl

theorem run_of_enlarge (ins : Instruction) :
    (c.enlarge room extra).run ins f = c.run ins f := rfl

theorem checkReturn_enlarge (ins : Instruction) (kind : Kind) :
    (c.enlarge room extra).checkReturn ins (some kind) (f.enlarge room extra) =
      c.checkReturn ins (some kind) f := rfl

/-! ### Executions -/

variable {n : Nat} {chain : CallChain} {changed : Bool} {queue items : List WorkItem}
  {item : WorkItem} {ins : Instruction}

theorem runNode_enlarge (h : Ready c g code) (hn : n < g.size) (hf : c.Fits f)
    (hrun : c.runNode g n f chain s = (s', .ok changed)) :
    (c.enlarge room extra).runNode g n (f.enlarge room extra) chain (s.enlarge room extra) =
      (s'.enlarge room extra, .ok changed) := by
  unfold runNode at hrun
  simp only at hrun
  split at hrun
  · cases hrun
  · next hcheck =>
    split at hrun
    · cases hrun
    · next out hout =>
      cases hrun
      have hfits : c.Fits out := (fits_invariant h).run hn hf hcheck hout
      -- A frame on exit has changed when the larger one has.
      have hchanged : ((s.enlarge room extra).outputs.get? n chain.key).any
          (·.same (out.enlarge room extra)) =
            (s.outputs.get? n chain.key).any (·.same out) := by
        rw [s.get?_outputs_enlarge]
        cases s.outputs.get? n chain.key with
        | none => rfl
        | some old => exact Frame.same_enlarge
      unfold runNode
      simp only [check_of_enlarge, run_of_enlarge, check_enlarge hcheck,
        run_enlarge hf hfits hout, hchanged]
      simp only [FlowState.enlarge, FrameTable.insert_map]
      rfl

theorem execute_enlarge (h : Ready c g code) (hn : n < g.size)
    (hstored : ∀ old, s.inputs.get? n chain.key = some old → c.Fits old) (hf : c.Fits f)
    (hexec : c.execute g n f chain s = (s', .ok changed)) :
    (c.enlarge room extra).execute g n (f.enlarge room extra) chain (s.enlarge room extra) =
      (s'.enlarge room extra, .ok changed) := by
  unfold execute at hexec ⊢
  simp only [s.get?_inputs_enlarge]
  simp only at hexec
  split at hexec
  · next hnone =>
    simp only [hnone, Option.map_none]
    exact runNode_enlarge (s := { s with last := _ }) h hn hf hexec
  · next old hold =>
    simp only [hold, Option.map_some]
    have hlarger : ∀ {merged grows}, Frame.merge c.hierarchy old f = (merged, .ok grows) →
        Frame.merge (c.enlarge room extra).hierarchy (old.enlarge room extra)
          (f.enlarge room extra) = (merged.enlarge room extra, .ok grows) := Frame.merge_enlarge
    split at hexec
    · cases hexec
    · next hmerge =>
      cases hexec
      simp only [hlarger hmerge]
      rfl
    · next hmerge =>
      simp only [hlarger hmerge]
      exact runNode_enlarge (s := { s with last := _ }) h hn ((hstored old hold).merge hmerge) hexec

/-- An execution that is due, on the larger frame. -/
def Task.enlarge (room extra : Nat) : Task → Task
  | .flow node frame chain => .flow node (frame.enlarge room extra) chain
  | .handle guard source key out => .handle guard source key (out.enlarge room extra)

theorem Task.node_enlarge (task : Task) : (task.enlarge room extra).node = task.node := by
  cases task <;> rfl

theorem Task.chain_enlarge (task : Task) : (task.enlarge room extra).chain = task.chain := by
  cases task <;> rfl

theorem Task.frame_enlarge {task : Task} (hf : task.frame g s = .ok f) :
    (task.enlarge room extra).frame g (s.enlarge room extra) = .ok (f.enlarge room extra) := by
  cases task with
  | flow =>
    cases hf
    rfl
  | handle guard source key out =>
    simp only [frame, ite_error_eq_ok, known_eq_ok] at hf
    obtain ⟨hroom, hf⟩ := hf
    have hroom' : ¬(out.enlarge room extra).stack.max < 1 := by
      rw [Frame.enlarge_max]
      omega
    simp only [Task.enlarge, frame, if_neg hroom', s.get?_inputs_enlarge, handlerFrame_enlarge hf]
    rfl

theorem dueTasks_enlarge (item : WorkItem) (out : Frame) (chain : CallChain)
    (successors : List Nat) :
    dueTasks g item (out.enlarge room extra) chain successors =
      (dueTasks g item out chain successors).map (Task.enlarge room extra) := by
  simp only [dueTasks, List.map_append, List.map_map]
  rfl

theorem performAll_enlarge (h : Ready c g code) {tasks : List Task} (hs : Reaches c g tasks queue s)
    (hall : c.performAll g tasks s = (s', .ok items)) :
    (c.enlarge room extra).performAll g (tasks.map (Task.enlarge room extra))
      (s.enlarge room extra) = (s'.enlarge room extra, .ok items) := by
  induction tasks generalizing queue items s with
  | nil =>
    cases hall
    rfl
  | cons task tasks ih =>
    obtain ⟨f, s₁, changed, more, hf, hexec, hrest, rfl⟩ := performAll_cons_ok hall
    -- What arrives keeps the limits, like every frame that data flow reaches.
    obtain ⟨hin, -, hgiven⟩ := (fits_invariant h).of_reaches h.built hs
    have hstored := Stored.of_reaches h.built hs
    have hfits : c.Fits f := (fits_invariant h).of_frame
      (hstored.guarded task List.mem_cons_self) (hgiven task List.mem_cons_self) hf
    have hexec' : (c.enlarge room extra).execute g task.node (f.enlarge room extra) task.chain
        (s.enlarge room extra) = (s₁.enlarge room extra, .ok changed) :=
      execute_enlarge h (hstored.inRange task List.mem_cons_self) (hin _ _) hfits hexec
    simp only [List.map_cons, performAll, Task.frame_enlarge hf, Task.node_enlarge,
      Task.chain_enlarge, hexec', ih (hs.perform hf hexec) hrest]
    simp only [queued, Task.node_enlarge, Task.chain_enlarge]

/-! ### The loop over the queue -/

theorem leaving_enlarge {out : Frame} {successors : List Nat}
    (hl : leaving g item s = .ok (out, chain, successors)) :
    leaving g item (s.enlarge room extra) = .ok (out.enlarge room extra, chain, successors) := by
  obtain ⟨hout, hchain, hsuccessors⟩ := leaving_eq_ok.1 hl
  refine leaving_eq_ok.2 ⟨?_, hchain, ?_⟩
  · rw [s.get?_outputs_enlarge, hout]
    rfl
  · unfold flowSuccessors at hsuccessors ⊢
    split
    · next hret =>
      rw [if_pos hret] at hsuccessors
      obtain ⟨target, htarget, hsuccessors⟩ := bind_eq_ok.1 hsuccessors
      exact bind_eq_ok.2 ⟨target, returnTarget_enlarge htarget, hsuccessors⟩
    · next hret =>
      rw [if_neg hret] at hsuccessors
      exact hsuccessors

theorem visit_enlarge (h : Ready c g code) (hs : Reaches c g [] (item :: queue) s)
    (hvisit : c.visit g item s = (s', .ok items)) :
    (c.enlarge room extra).visit g item (s.enlarge room extra) =
      (s'.enlarge room extra, .ok items) := by
  rw [visit_eq] at hvisit ⊢
  split at hvisit
  · cases hvisit
  · next out chain successors hl =>
    simp only [leaving_enlarge hl, dueTasks_enlarge]
    exact performAll_enlarge h (.visit hs hl) hvisit

/-- The loop ends in the same way, also when it may take more visits. -/
theorem settle_enlarge (h : Ready c g code) {fuel fuel' : Nat} (hfuel : fuel ≤ fuel')
    (hs : Reaches c g [] queue s) (hsettle : c.settle g fuel queue s = (s', .ok ())) :
    (c.enlarge room extra).settle g fuel' queue (s.enlarge room extra) =
      (s'.enlarge room extra, .ok ()) := by
  -- The induction is on the visits that the loop may take with the smaller limits.
  induction fuel generalizing fuel' queue s with
  | zero =>
    cases queue with
    | nil =>
      cases hsettle
      rw [settle]
    | cons => cases hsettle
  | succ fuel ih =>
    cases queue with
    | nil =>
      cases hsettle
      rw [settle]
    | cons item queue =>
      obtain ⟨fuel', rfl⟩ : ∃ k, fuel' = k + 1 := ⟨fuel' - 1, by omega⟩
      rw [settle] at hsettle
      split at hsettle
      · cases hsettle
      · next s₁ items hvisit =>
        rw [settle, visit_enlarge h hs hvisit]
        exact ih (by omega) ((visit_reaches hs hvisit).1 items rfl) hsettle

theorem visitBound_le_enlarge (room extra : Nat) :
    c.visitBound g ≤ (c.enlarge room extra).visitBound g := by
  have hslots : c.method.maxStack.toNat + c.method.maxLocals.toNat ≤
      (c.method.maxStack + room).toNat + (c.method.maxLocals + extra).toNat := by
    omega
  have hframe : c.frameBound ≤ (c.enlarge room extra).frameBound :=
    Nat.succ_le_succ (Nat.mul_le_mul_right _ hslots)
  exact Nat.succ_le_succ (Nat.mul_le_mul_left _ (Nat.succ_le_succ hframe))

/-! ### The exits, and the whole -/

theorem recheckReturn_enlarge {key : CallKey} {r : Except Failure Unit}
    (hr : c.recheckReturn n key ins s = (s', r)) :
    (c.enlarge room extra).recheckReturn n key ins (s.enlarge room extra) =
      (s'.enlarge room extra, r) := by
  unfold recheckReturn at hr ⊢
  rw [s.get?_inputs_enlarge]
  split at hr
  · next kind f hact hf =>
    cases hr
    simp only [hact, hf, Option.map_some, checkReturn_enlarge]
    rfl
  · next hother =>
    cases hr
    split
    · next kind f' hact hf' =>
      obtain ⟨f, hf, rfl⟩ := Option.map_eq_some_iff.1 hf'
      exact absurd hf (hother kind f hact)
    · rfl

theorem scanExit_enlarge {row : List (CallKey × Frame)}
    (hscan : c.scanExit n ins s row = (s', .ok ())) :
    (c.enlarge room extra).scanExit n ins (s.enlarge room extra)
      (row.map (Prod.map id (·.enlarge room extra))) = (s'.enlarge room extra, .ok ()) := by
  induction row generalizing s with
  | nil =>
    cases hscan
    rfl
  | cons entry row ih =>
    obtain ⟨key, out⟩ := entry
    rw [scanExit] at hscan
    split at hscan
    · cases hscan
    · next s₁ hrecheck =>
      have hrecheck' : (c.enlarge room extra).recheckReturn n key ins { s.enlarge room extra with
          warnings := s.warnings ++ leftMarkers ins key out } = (s₁.enlarge room extra, .ok ()) :=
        recheckReturn_enlarge hrecheck
      have hwarnings : (s.enlarge room extra).warnings = s.warnings := rfl
      simp only [List.map_cons, Prod.map_apply, id_eq, scanExit, leftMarkers_enlarge, hwarnings,
        hrecheck']
      exact ih hscan

theorem scanExits_enlarge {ns : List Nat} (hscan : c.scanExits g s ns = (s', .ok ())) :
    (c.enlarge room extra).scanExits g (s.enlarge room extra) ns =
      (s'.enlarge room extra, .ok ()) := by
  induction ns generalizing s with
  | nil =>
    cases hscan
    rfl
  | cons n ns ih =>
    rw [scanExits] at hscan ⊢
    split at hscan
    · next hexit =>
      rw [if_pos hexit]
      split at hscan
      · cases hscan
      · next s₁ hrow =>
        have hrow' : (c.enlarge room extra).scanExit n (g.instruction n) (s.enlarge room extra)
            ((s.enlarge room extra).outputs.row n) = (s₁.enlarge room extra, .ok ()) := by
          rw [show (s.enlarge room extra).outputs = s.outputs.map _ from rfl, FrameTable.row_map]
          exact scanExit_enlarge hrow
        simp only [hrow']
        exact ih hscan
    · next hexit =>
      rw [if_neg hexit]
      exact ih hscan

/-- Data flow that ends well ends in the same way with larger limits, on larger frames. -/
theorem solve_enlarge (h : Ready c g code) (hsolve : c.solve g = (s, .ok ())) :
    (c.enlarge room extra).solve g = (s.enlarge room extra, .ok ()) := by
  have hlocals : 0 ≤ c.method.maxLocals := Int.le_trans (Int.natCast_nonneg _) h.prepared.locals
  have hstart : (startState g).enlarge room extra = startState g := by
    simp only [startState, FlowState.enlarge, FrameTable.empty_map]
    rfl
  unfold solve at hsolve
  split at hsolve
  · cases hsolve
  · next f hf =>
    have hs := Reaches.start (g := g) hf
    split at hsolve
    · cases hsolve
    · next s₁ changed hexec =>
      have hs₁ := hs.perform rfl hexec
      rw [execute_start_changed hexec] at hs₁
      split at hsolve
      · cases hsolve
      · next s₂ hsettle =>
        have hexec' : (c.enlarge room extra).execute g 0 (f.enlarge room extra) .empty
            ((startState g).enlarge room extra) = (s₁.enlarge room extra, .ok changed) :=
          execute_enlarge h h.built.nonempty (by simp [startState])
            ((fits_invariant h).initial hf) hexec
        have hsettle' : (c.enlarge room extra).settle g ((c.enlarge room extra).visitBound g)
            [⟨0, .empty⟩] (s₁.enlarge room extra) = (s₂.enlarge room extra, .ok ()) :=
          settle_enlarge h (visitBound_le_enlarge room extra) hs₁ hsettle
        rw [hstart] at hexec'
        unfold solve
        simp only [initialFrame_enlarge hlocals hf, hexec', hsettle']
        exact scanExits_enlarge hsolve

end MethodContext

/-! ### Verdicts -/

theorem checkOperands_mono {pool : ConstantPool} {maxLocals maxLocals' : Int} {ins : Instruction}
    (hle : maxLocals ≤ maxLocals') (h : checkOperands pool maxLocals ins = .ok ()) :
    checkOperands pool maxLocals' ins = .ok () := by
  have hslot : ∀ {size : Nat}, checkSlot maxLocals ins size = .ok () →
      checkSlot maxLocals' ins size = .ok () := by
    intro size hsize
    simp only [checkSlot, ite_error_eq_ok, and_true] at hsize ⊢
    omega
  unfold checkOperands at h ⊢
  cases hact : ins.action with simp only [hact] at h ⊢
  | load | store | iinc | ret => exact hslot h
  | loadConst twoSlots => cases twoSlots <;> exact h
  | invoke kind => cases kind <;> exact h
  | _ => exact h

theorem Method.prepare_enlarge {m : Method} {pool : ConstantPool} {p : PreparedCode}
    {room extra : Nat} (hstack : m.maxStack + room ≤ 0xffff)
    (hlocals : m.maxLocals + extra ≤ 0xffff) (h : m.prepare pool = .ok p) :
    (m.enlarge room extra).prepare pool = .ok p := by
  simp only [prepare, bind_eq_ok, mapError_eq_ok, ite_error_bind_eq_ok, exists_unit, forM_eq_ok,
    List.forM_eq_forM, pure_eq_ok] at h ⊢
  obtain ⟨type, htype, hresult, hlimits, code, hcode, hoperands, hhandlers, hp⟩ := h
  refine ⟨type, htype, hresult, ?_, code, hcode, ?_, hhandlers, hp⟩
  · have hmax : (m.enlarge room extra).maxStack = m.maxStack + room := rfl
    have hmax' : (m.enlarge room extra).maxLocals = m.maxLocals + extra := rfl
    have hslots : (m.enlarge room extra).incomingSlots type = m.incomingSlots type := rfl
    have hlength : (m.enlarge room extra).code = m.code := rfl
    simp only [checkLimits, ite_error_eq_ok, and_true, hmax, hmax', hslots, hlength] at hlimits ⊢
    omega
  · intro ins hins
    refine checkOperands_mono ?_ (hoperands ins hins)
    show m.maxLocals ≤ m.maxLocals + extra
    omega

/-- A verification that accepts a method accepts it with larger limits, after the same steps, with
the same warnings and on the larger frames. -/
theorem verifyTraced_enlarge {h : Hierarchy} {options : VerifyOptions} {runId : String}
    {owner : Class} {m : Method} {room extra : Nat} {v : Verdict}
    (hverify : verify h options runId owner m = .ok v) (haccepted : v.status = .accepted)
    (hstack : m.maxStack + room ≤ 0xffff) (hlocals : m.maxLocals + extra ≤ 0xffff) :
    verifyTraced h options runId owner (m.enlarge room extra) =
      ⟨.ok v, (verifyTraced h options runId owner m).flow.map (FlowState.enlarge room extra)⟩ := by
  have htext : (m.enlarge room extra).text = m.text := rfl
  have hcode : (m.enlarge room extra).hasCode = m.hasCode := rfl
  have hhandlers : (m.enlarge room extra).handlers = m.handlers := rfl
  unfold verify at hverify
  unfold verifyTraced at hverify ⊢
  simp only [htext, hcode, hhandlers] at hverify ⊢
  split at hverify
  · next hnone =>
    cases hverify
    rw [if_pos hnone, if_pos hnone]
    rfl
  · next hsome =>
    rw [if_neg hsome, if_neg hsome]
    split at hverify
    · cases hverify
      cases haccepted
    · next p hp =>
      simp only [Method.prepare_enlarge hstack hlocals hp]
      split at hverify
      · cases hverify
      · cases hverify
        cases haccepted
      · next g hg =>
        have hready := MethodContext.Ready.of_build (h := h) hp hg
        rcases hsolve : MethodContext.solve ⟨h, owner, m, p.type⟩ g with ⟨s, r⟩
        simp only [hsolve] at hverify ⊢
        split at hverify
        · have hsolve' : MethodContext.solve ⟨h, owner, m.enlarge room extra, p.type⟩ g =
              (s.enlarge room extra, .ok ()) := MethodContext.solve_enlarge hready hsolve
          simp only [hsolve']
          cases hverify
          rfl
        · cases hverify
        · cases hverify
          cases haccepted

/-- Larger limits leave an accepted method accepted: the verdict is the same, with its steps and its
warnings, and every frame that is stored is the larger one. The classes only have to show the same,
so that the class of the method may hold it with the larger limits. -/
theorem verify_accepts_larger_limits (h h' : Hierarchy) (options : VerifyOptions) (runId : String)
    (owner owner' : Class) (m : Method) (room extra : Nat) (v : Verdict)
    (hverify : verify h options runId owner m = .ok v) (haccepted : v.status = .accepted)
    (hstack : m.maxStack + room ≤ 0xffff) (hlocals : m.maxLocals + extra ≤ 0xffff)
    (hclasses : h'.outline = h.outline) (howner : owner'.withoutMembers = owner.withoutMembers) :
    verify h' options runId owner' (m.enlarge room extra) = .ok v ∧
      (verifyTraced h' options runId owner' (m.enlarge room extra)).flow =
        (verifyTraced h options runId owner m).flow.map (FlowState.enlarge room extra) := by
  have hsame : verifyTraced h' options runId owner' (m.enlarge room extra) =
      verifyTraced h options runId owner (m.enlarge room extra) := by
    rw [← verifyTraced_outline h', hclasses, howner, verifyTraced_outline h]
  unfold verify
  rw [hsame, verifyTraced_enlarge hverify haccepted hstack hlocals]
  exact ⟨rfl, rfl⟩

/-- Counts down, and then leaves an object without a constructor call. A handler guards the loop. -/
def countDown : Method where
  name := "countDown"
  descriptor := "(I)V"
  access := .staticBit
  maxStack := 1
  maxLocals := 1
  -- iinc 0 -1, iload_0, ifne 0, new #2, return; athrow
  code := [0x84, 0x00, 0xff, 0x1a, 0x9a, 0xff, 0xfc, 0xbb, 0x00, 0x02, 0xb1, 0xbf]
  handlers := [{ start := 0, stop := 7, target := 11, catchIndex := 0 }]

/-- A class that holds a method. -/
def countingClass (m : Method) : Class where
  name := "app/Counting"
  super := some objectClass
  methods := [m]
  pool := (ConstantPool.empty.addClass objectClass).1

/-- The classes that the method needs, with its own. -/
def countingTable (m : Method) : ClassTable :=
  ⟨[{ name := objectClass, super := none, access := .publicBit },
    { name := throwableClass, super := some objectClass }, countingClass m]⟩

/-- The verdict on it. -/
def countDownVerdict : Verdict where
  owner := "app/Counting"
  method := "countDown(I)V"
  warnings := ["10: return [top-level] leaves uninitialized(java/lang/Object@7) on the stack at 0"]
  steps := 6

theorem verify_accepts_larger_limits_countDown :
    verify (countingTable countDown) {} "" (countingClass countDown) countDown =
        .ok countDownVerdict ∧
      verify (countingTable (countDown.enlarge 2 3)) {} "" (countingClass (countDown.enlarge 2 3))
        (countDown.enlarge 2 3) = .ok countDownVerdict ∧
      (verifyTraced (countingTable (countDown.enlarge 2 3)) {} ""
        (countingClass (countDown.enlarge 2 3)) (countDown.enlarge 2 3)).flow =
          (verifyTraced (countingTable countDown) {} "" (countingClass countDown)
            countDown).flow.map (FlowState.enlarge 2 3) := by
  have hverify : verify (countingTable countDown) {} "" (countingClass countDown) countDown =
      .ok countDownVerdict := by decide +kernel
  refine ⟨hverify, verify_accepts_larger_limits _ _ {} "" _ _ countDown 2 3 countDownVerdict hverify
    rfl (by decide) (by decide) ?_ rfl⟩
  -- Both tables show the same classes, since what a class shows of a method has no limits.
  exact ClassTable.hierarchy_outline_of_classes rfl

end Bytecode
