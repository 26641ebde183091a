import Bytecode.Proofs.Capacity
import Bytecode.Proofs.Regions

/-!
The limits of a method hold in every frame that data flow meets.

Main statement: `fits_invariant`, the initial frame keeps the limits, and merges, instructions and
handlers do.
-/
namespace Bytecode.MethodContext

open ValueType

variable {c : MethodContext} {g : FlowGraph} {code : Array Instruction} {f out : Frame}

/-! ### Methods with their graphs -/

/-- The method of `c` passed the checks before data flow, and `g` is the graph of its code. -/
structure Ready (c : MethodContext) (g : FlowGraph) (code : Array Instruction) : Prop where
  prepared : c.method.Prepared c.pool ⟨code, c.type⟩
  built : g.toCodeEdges.Built code c.method.handlers c.pool
  partitioned : g.Partitioned

theorem Ready.of_build {h : Hierarchy} {owner : Class} {m : Method} {p : PreparedCode}
    {strict : Bool} (hp : m.prepare owner.pool = .ok p)
    (hg : FlowGraph.build p.code m.handlers owner.pool strict = .ok g) :
    Ready ⟨h, owner, m, p.type⟩ g p.code where
  prepared := Method.prepared_of_prepare hp
  built := FlowGraph.built_of_build hg
  partitioned := FlowGraph.partitioned_of_build hg

namespace Ready

theorem instruction_mem (h : Ready c g code) {n : Nat} (hn : n < g.size) :
    g.instruction n ∈ code := by
  have hget := CodeEdges.getElem?_code g.toCodeEdges hn
  rw [h.built.code] at hget
  exact Array.mem_of_getElem? hget

theorem checked (h : Ready c g code) {n : Nat} (hn : n < g.size) : c.Checked (g.instruction n) :=
  h.prepared.operands _ (h.instruction_mem hn)

theorem action_ne_wide (h : Ready c g code) {n : Nat} (hn : n < g.size) :
    (g.instruction n).action ≠ .wide := fun hact =>
  h.prepared.laid.notWide _ (h.instruction_mem hn) (Opcode.format_of_wide _ hact)

end Ready

/-! ### The initial frame -/

theorem Proceeds.bind {x : Except InternalError Frame} {k : Frame → Except InternalError Frame}
    (hx : c.Proceeds x) (hk : ∀ f, c.Fits f → c.Proceeds (k f)) : c.Proceeds (x >>= k) := by
  obtain ⟨f, rfl, hf⟩ := hx
  exact hk f hf

theorem Fits.setLocal (hf : c.Fits f) {i : Nat} (t : ValueType)
    (hi : i < c.method.maxLocals.toNat) : c.Proceeds (f.setLocal i t) := by
  refine ⟨_, Frame.setLocal_eq_ok.2 ⟨hf.locals ▸ hi, rfl⟩, { hf with locals := ?_ }⟩
  simpa using hf.locals

theorem placeArguments_proceeds {args : List FieldType} {slot : Nat} (hf : c.Fits f)
    (hslots : slot + (args.map FieldType.size).sum ≤ c.method.maxLocals.toNat) :
    c.Proceeds (placeArguments f slot args) := by
  induction args generalizing f slot with
  | nil => exact hf.idle.proceeds
  | cons arg args ih =>
    have hpos := size_pos (ofFieldType arg)
    have hsize := size_ofFieldType arg
    simp only [List.map_cons, List.sum_cons] at hslots
    refine .bind (hf.place _ ?_ ?_).proceeds fun f' hf' => ih hf' (by omega)
    · rw [hf.locals]
      omega
    · rw [hf.locals]
      omega

theorem initialFrame_proceeds (h : Ready c g code) : c.Proceeds c.initialFrame := by
  have hlocals := h.prepared.locals
  simp only [Method.incomingSlots, argumentSlots_eq] at hlocals
  have hempty : c.Fits { Frame.empty c.method.maxStack c.method.maxLocals.toNat with
      thisUninitialized := c.startsUninitialized } :=
    { max := rfl, room := h.prepared.stack, values := by simp [Frame.empty],
      locals := by simp [Frame.empty] }
  unfold initialFrame
  simp only
  split
  · next hstatic =>
    simp only [hstatic, if_true] at hlocals
    exact placeArguments_proceeds hempty (by omega)
  · next hstatic =>
    simp only [hstatic, Bool.false_eq_true, if_false] at hlocals
    refine .bind (hempty.setLocal (i := 0) _ (by omega)) fun f hf => ?_
    exact placeArguments_proceeds hf (by omega)

/-! ### Merges and handlers -/

theorem size_of_mergeStackEntry {h : Hierarchy} {i : Nat} {a b d : ValueType}
    (hd : h.mergeStackEntry i a b = .ok d) : d.size = a.size ∧ (d = .unknown → a = .unknown) := by
  rcases Frame.mergeStackEntry_ok hd with ⟨rfl, rfl⟩ | ⟨ha, hb, hd⟩
  · exact ⟨rfl, id⟩
  · have hreference := (Hierarchy.isReference_join ha hb hd).1
    have hobject : ∀ {t : ValueType}, t.isReference = true → t.isObject = true := fun h => by
      simp [isObject, h]
    refine ⟨?_, ?_⟩
    · rw [size_of_isObject (hobject hreference), size_of_isObject (hobject ha)]
    · rintro rfl
      cases hreference

theorem slotsOf_of_forall₂ {l l' : List ValueType}
    (h : List.Forall₂ (fun a d : ValueType => d.size = a.size ∧ (d = .unknown → a = .unknown)) l l') :
    slotsOf l' = slotsOf l ∧ (unknown ∈ l' → unknown ∈ l) := by
  induction h with
  | nil => exact ⟨rfl, id⟩
  | cons had _ ih =>
    simp only [slotsOf_cons, List.mem_cons, had.1, ih.1, true_and]
    exact Or.imp (fun h => (had.2 h.symm).symm) ih.2

theorem Fits.merge {h : Hierarchy} {f' m : Frame} (hf : c.Fits f)
    {changed : Bool} (hm : Frame.merge h f f' = (m, .ok changed)) : c.Fits m := by
  obtain ⟨⟨hstack, -⟩, ⟨hlocals, -⟩, hmax, -⟩ := Frame.merge_eq_ok (Q := fun _ _ => True)
    (R := fun _ _ => True) (S := fun _ _ => True) hm
    (fun i a b d hd => ⟨size_of_mergeStackEntry hd, trivial⟩)
    fun i a b d _ => ⟨trivial, trivial⟩
  obtain ⟨hslots, hunknown⟩ := slotsOf_of_forall₂ hstack
  refine { max := hmax.trans hf.max, room := ?_, values := mt hunknown hf.values, locals := ?_ }
  · rw [hslots, hmax]
    exact hf.room
  · rw [← hf.locals]
    simpa using hlocals.length_eq.symm

theorem Fits.handler (hf : c.Fits out) (guard : Guard) (entry : Option Frame)
    (hmax : ¬out.stack.max < 1) : c.Proceeds (handlerFrame guard out entry) := by
  have hpush : Stack.push { max := out.stack.max } guard.caughtType =
      .ok { values := [guard.caughtType], max := out.stack.max } := by
    refine Stack.push_eq_ok.2 ⟨by simp [Guard.caughtType], ?_, rfl⟩
    simp [Guard.caughtType, size]
    omega
  simp only [handlerFrame, hpush, bind, Except.bind]
  refine ⟨_, rfl, { max := hf.max, room := ?_, values := ?_, locals := hf.locals }⟩
  · simp [Guard.caughtType, size]
    omega
  · simp [Guard.caughtType]

theorem fits_invariant (h : Ready c g code) : FrameInvariant c g c.Fits where
  initial hf := by
    obtain ⟨f, hf', hfits⟩ := initialFrame_proceeds h
    cases hf.symm.trans hf'
    exact hfits
  merge hf _ hm := hf.merge hm
  run hn hf hcheck hrun := by
    obtain ⟨out, hout, hfits⟩ := run_proceeds hf (h.checked hn) hcheck
    cases hrun.symm.trans hout
    exact hfits
  handle {guard out entry f} _ hf hhandler := by
    have hmax : ¬out.stack.max < 1 := by
      obtain ⟨stack, hpush, -⟩ := bind_eq_ok.1 hhandler
      obtain ⟨-, hroom, -⟩ := Stack.push_eq_ok.1 hpush
      simp [Guard.caughtType, size] at hroom
      omega
    obtain ⟨f', hf', hfits⟩ := hf.handler guard entry hmax
    cases hhandler.symm.trans hf'
    exact hfits

end Bytecode.MethodContext
