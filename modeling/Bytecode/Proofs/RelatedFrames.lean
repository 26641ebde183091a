import Bytecode.Proofs.Limits
import Bytecode.Proofs.SmallerFrames

/-!
Runs on frames whose values are related one by one.

Most instructions move values, or put values in the place of others, and look at no more than their
sizes. Whatever relates the values of two frames, such an instruction does the same to both.

Main statement: `Frame.Related.run`.
-/
namespace Bytecode

open List MethodContext ValueType

/-- Related values have the same size and are usable, and a value that is no marker is related to
itself. -/
structure Uniform (R : ValueType → ValueType → Prop) : Prop where
  size : ∀ {v w}, R v w → w.size = v.size
  known : ∀ {v w}, R v w → w ≠ .unknown
  same : ∀ {v : ValueType}, v.isUninitialized = false → v ≠ .unknown → R v v

theorem Uniform.of_isPlain {R : ValueType → ValueType → Prop} (hR : Uniform R) {v : ValueType}
    (hv : v.isPlain = true) : R v v := by
  cases v with
  | unknown | uninitialized | uninitializedThis | returnAddress => cases hv
  | _ => exact hR.same rfl nofun

/-- Does an instruction look at no more than the sizes of values? A constructor call, a throw and a
load from an array of objects look at the values, and an allocation makes a marker. -/
def Action.isUniform : Action → Bool
  | .arrayLoad .reference | .invoke _ | .allocate | .raise => false
  | _ => true

namespace Frame

/-- The values of two frames are related one by one. What the first does not know of a local variable
may be anything. -/
structure Related (R : ValueType → ValueType → Prop) (f e : Frame) : Prop where
  stack : Forall₂ R f.stack.values e.stack.values
  locals : Forall₂ (fun v w => v = .unknown ∨ R v w) f.locals.toList e.locals.toList
  max : e.stack.max = f.stack.max

theorem forall₂_imp_of_mem {R S : ValueType → ValueType → Prop} {l l' : List ValueType}
    (h : Forall₂ R l l') (hstep : ∀ v ∈ l, ∀ w, R v w → S v w) : Forall₂ S l l' := by
  induction h with
  | nil => exact .nil
  | @cons v w l l' hvw _ ih =>
    exact .cons (hstep v mem_cons_self w hvw) (ih fun v hv => hstep v (mem_cons_of_mem _ hv))

theorem forall₂_of_left {R S T : ValueType → ValueType → Prop} {l l' l'' : List ValueType}
    (h : Forall₂ R l l') (h' : Forall₂ S l l'')
    (hstep : ∀ u v w, R u v → S u w → T v w) : Forall₂ T l' l'' := by
  induction h generalizing l'' with
  | nil =>
    cases h'
    exact .nil
  | cons huv _ ih =>
    cases h' with
    | cons huw h' => exact .cons (hstep _ _ _ huv huw) (ih h')

namespace Related

variable {R : ValueType → ValueType → Prop} {f e out : Frame} {v w : ValueType} {ins : Instruction}

theorem operand (h : Related R f e) {depth : Nat} (hv : f.stack.values[depth]? = some v) :
    ∃ w, e.stack.values[depth]? = some w ∧ R v w :=
  exists_of_forall₂ h.stack.flip hv

theorem getLocal (h : Related R f e) {i : Nat} (hv : f.locals[i]? = some v) (hne : v ≠ .unknown) :
    ∃ w, e.locals[i]? = some w ∧ R v w := by
  rw [← Array.getElem?_toList] at hv
  obtain ⟨w, hw, hvw⟩ := exists_of_forall₂ h.locals.flip hv
  rw [Array.getElem?_toList] at hw
  exact ⟨w, hw, hvw.resolve_left hne⟩

theorem withValues (h : Related R f e) {vs ws : List ValueType} (hvs : Forall₂ R vs ws) :
    Related R (f.withValues vs) (e.withValues ws) where
  stack := hvs
  locals := h.locals
  max := h.max

theorem popN (h : Related R f e) {n : Nat} (hf : f.popN n = .ok out) :
    ∃ out', e.popN n = .ok out' ∧ Related R out out' := by
  obtain ⟨hn, rfl⟩ := popN_eq_ok.1 hf
  rw [h.stack.length_eq] at hn
  exact ⟨_, popN_eq_ok.2 ⟨hn, rfl⟩, h.withValues (List.forall₂_drop n h.stack)⟩

theorem forall₂_set {l l' : List ValueType} (h : Forall₂ R l l') (hvw : R v w)
    (i : Nat) : Forall₂ R (l.set i v) (l'.set i w) := by
  induction h generalizing i with
  | nil => exact .nil
  | cons hab hrest ih =>
    cases i with
    | zero => exact .cons hvw hrest
    | succ i => exact .cons hab (ih i)

/-- Moves on stacks with entries of the same sizes move the same entries. -/
theorem forall₂_shuffled {op : StackOp} {l l' vs ws : List ValueType} (h : Forall₂ R l l')
    (hR : ∀ a b, R a b → a.size = b.size) (hl : Shuffled op l vs)
    (hl' : Shuffled op l' ws) : Forall₂ R vs ws := by
  cases hl <;> cases hl' <;> simp only [List.forall₂_cons] at h ⊢ <;> grind

theorem popElement (h : Related R f e) {index array : ValueType} {vs : List ValueType}
    (hv : f.stack.values = index :: array :: vs) : ∃ index' array' ws,
      e.stack.values = index' :: array' :: ws ∧ R array array' ∧
      Related R (f.withValues vs) (e.withValues ws) := by
  have hstack := h.stack
  rw [hv] at hstack
  generalize e.stack.values = es at hstack
  cases hstack with
  | cons _ hstack =>
    cases hstack with
    | cons harray hrest => exact ⟨_, _, _, rfl, harray, h.withValues hrest⟩

section Uniform

variable (hR : Uniform R)
include hR

theorem slotsOf_eq (h : Related R f e) :
    slotsOf e.stack.values = slotsOf f.stack.values ∧
      (unknown ∈ e.stack.values → unknown ∈ f.stack.values) :=
  slotsOf_of_forall₂ (h.stack.imp fun _ _ hvw =>
    ⟨hR.size hvw, fun hunknown => absurd hunknown (hR.known hvw)⟩)

variable {c : MethodContext} {n : Nat}

theorem fits (h : Related R f e) (hf : c.Fits f) : c.Fits e where
  max := h.max.trans hf.max
  room := by
    rw [(h.slotsOf_eq hR).1, h.max]
    exact hf.room
  values hmem := hf.values ((h.slotsOf_eq hR).2 hmem)
  locals := by
    rw [← hf.locals]
    simpa using h.locals.length_eq.symm

theorem push (h : Related R f e) (hvw : R v w) (hf : f.push v = .ok out) :
    ∃ out', e.push w = .ok out' ∧ Related R out out' := by
  obtain ⟨-, hroom, rfl⟩ := push_eq_ok.1 hf
  refine ⟨_, push_eq_ok.2 ⟨hR.known hvw, ?_, rfl⟩, h.withValues (.cons hvw h.stack)⟩
  rw [hR.size hvw, (h.slotsOf_eq hR).1, h.max]
  exact hroom

theorem replace (h : Related R f e) (hvw : R v w) (hf : f.replace n v = .ok out) :
    ∃ out', e.replace n w = .ok out' ∧ Related R out out' := by
  obtain ⟨f', hpop, hpush⟩ := bind_eq_ok.1 hf
  obtain ⟨e', hpop', h'⟩ := h.popN hpop
  obtain ⟨out', hpush', hout⟩ := h'.push hR hvw hpush
  exact ⟨out', bind_eq_ok.2 ⟨e', hpop', hpush'⟩, hout⟩

theorem store (h : Related R f e) {i : Nat} (hf : f.store i = .ok out) :
    ∃ out', e.store i = .ok out' ∧ Related R out out' := by
  obtain ⟨v, vs, hv, hi, hi', rfl⟩ := store_eq_ok.1 hf
  have hstack := h.stack
  have hsize : e.locals.size = f.locals.size := by simpa using h.locals.length_eq.symm
  rw [hv] at hstack
  generalize he : e.stack.values = es at hstack
  cases hstack with
  | @cons _ w _ ws hvw hrest =>
    refine ⟨_, store_eq_ok.2 ⟨w, ws, he, hsize ▸ hi, fun hw => ?_, rfl⟩, hrest, ?_, h.max⟩
    · rw [hsize]
      exact hi' (hR.size hvw ▸ hw)
    · have hset := forall₂_set h.locals (Or.inr hvw) i
      simp only [storedLocals, hR.size hvw]
      split
      · rw [Array.toList_setIfInBounds, Array.toList_setIfInBounds, Array.toList_setIfInBounds,
          Array.toList_setIfInBounds]
        exact forall₂_set hset (.inl rfl) (i + 1)
      · rw [Array.toList_setIfInBounds, Array.toList_setIfInBounds]
        exact hset

theorem loadElement (h : Related R f e) {access : ElementAccess} (haccess : access ≠ .reference)
    (hf : f.loadElement ins access = .ok out) :
    ∃ out', e.loadElement ins access = .ok out' ∧ Related R out out' := by
  simp only [Frame.loadElement, bind_eq_ok, Prod.exists, pop_eq_ok] at hf
  obtain ⟨index, _, ⟨_, hv, rfl⟩, array, _, ⟨vs, rfl, rfl⟩, hf⟩ := hf
  obtain ⟨index', array', ws, hw, -, hrest⟩ := h.popElement hv
  rw [if_pos haccess] at hf
  have hplain : (elementType access).isPlain = true := by
    cases access <;> simp_all [elementType, isPlain]
  obtain ⟨out', hpush', hout⟩ := hrest.push hR (hR.of_isPlain hplain) hf
  refine ⟨out', ?_, hout⟩
  rw [Frame.loadElement]
  simp only [pop_of_values hw, pop_withValues, bind, Except.bind]
  rw [if_pos haccess, hpush']

theorem runStackOp (h : Related R f e) (hfits : c.Fits f) {op : StackOp}
    (hact : ins.action = .stack op) (hcheck : c.check ins f = .ok ())
    (hf : f.runStackOp ins op = .ok out) :
    ∃ out', e.runStackOp ins op = .ok out' ∧ Related R out out' := by
  obtain ⟨haccess, hvalues⟩ := check_eq_ok.1 hcheck
  simp only [checkValues, hact, checkStackOp_eq_ok] at hvalues
  have hsizes : e.stack.values.map size = f.stack.values.map size := by
    rw [← List.forall₂_eq_eq_eq, List.forall₂_map_left_iff, List.forall₂_map_right_iff]
    exact h.stack.flip.imp fun _ _ hvw => hR.size hvw
  have hslots : ins.action.slots? = some op.slots := by rw [hact]; rfl
  have hroom := room_of_check (stackEffect_of_slots hslots) haccess
  rw [← (h.slotsOf_eq hR).1, ← h.max] at hroom
  rw [← hsizes] at hvalues
  have hproceeds : c.Proceeds (e.runStackOp ins op) :=
    (runStackOp_exchanges (h.fits hR hfits) hvalues hroom).proceeds
  obtain ⟨out', hout', -⟩ := hproceeds
  refine ⟨out', hout', ?_⟩
  obtain ⟨vs, hvs, rfl⟩ := runStackOp_ok hf
  obtain ⟨ws, hws, rfl⟩ := runStackOp_ok hout'
  exact h.withValues (forall₂_shuffled h.stack (fun _ _ hvw => (hR.size hvw).symm) hvs hws)

theorem runField (h : Related R f e) {access : FieldAccess}
    (hf : c.runField ins access f = .ok out) :
    ∃ out', c.runField ins access e = .ok out' ∧ Related R out out' := by
  simp only [MethodContext.runField, bind_eq_ok, Prod.exists] at hf
  obtain ⟨ref, type, hoperand, hf⟩ := hf
  simp only [MethodContext.runField, hoperand, bind, Except.bind]
  have hplain := hR.of_isPlain (isPlain_ofFieldType type)
  cases access with
  | getStatic => exact h.push hR hplain hf
  | putStatic => exact h.popN hf
  | get => exact h.replace hR hplain hf
  | put => exact h.popN hf

theorem popN_result (h : Related R f e) {result : Option FieldType} (hf : (do
      let f ← f.popN n
      match result with
      | some result => f.push (.ofFieldType result)
      | none => return f) = .ok out) :
    ∃ out', (do
      let e ← e.popN n
      match result with
      | some result => e.push (.ofFieldType result)
      | none => return e) = .ok out' ∧ Related R out out' := by
  obtain ⟨f', hpop, hf⟩ := bind_eq_ok.1 hf
  obtain ⟨e', hpop', h'⟩ := h.popN hpop
  cases result with
  | none =>
    cases hf
    exact ⟨e', bind_eq_ok.2 ⟨e', hpop', rfl⟩, h'⟩
  | some result =>
    obtain ⟨out', hpush, hout⟩ := h'.push hR (hR.of_isPlain (isPlain_ofFieldType result)) hf
    exact ⟨out', bind_eq_ok.2 ⟨e', hpop', hpush⟩, hout⟩

/-- An invocation that initializes the same objects in both frames keeps values related. -/
theorem runInvoke (h : Related R f e) {kind : InvokeKind} (hchecked : c.Checked ins)
    (hact : ins.action = .invoke kind) (hcheck : c.checkInvoke ins kind f = .ok ())
    (hinit : ∀ v w, v ∈ f.stack.values → v.isUninitialized = true → R v w →
      w.isUninitializedThis = v.isUninitializedThis ∧
        Related R (f.initializeObject v) (e.initializeObject w))
    (hf : c.runInvoke ins kind f = .ok out) :
    ∃ out', c.runInvoke ins kind e = .ok out' ∧ Related R out out' := by
  obtain ⟨ref, type, hoperand, -, hconstructor⟩ := hchecked.invoke hact
  simp only [MethodContext.runInvoke, hoperand, bind, Except.bind] at hf ⊢
  by_cases hname : ref.name = constructorName
  · rw [if_pos hname] at hf ⊢
    obtain ⟨marker, hmarker, huninitialized⟩ :=
      (operands_of_checkInvoke hoperand hcheck).2 (hconstructor hname).1 hname
    obtain ⟨w, hw, hvw⟩ := h.operand hmarker
    obtain ⟨hthis, hinit⟩ := hinit marker w (mem_of_getElem? hmarker) huninitialized hvw
    rw [Stack.peek_eq_ok.2 hmarker] at hf
    rw [Stack.peek_eq_ok.2 hw]
    simp only [hthis] at hf ⊢
    refine popN_result hR ?_ hf
    split
    · exact ⟨hinit.stack, hinit.locals, hinit.max⟩
    · exact hinit
  · rw [if_neg hname] at hf ⊢
    exact h.popN_result hR hf

/-- An instruction that looks only at sizes does the same to both frames. -/
theorem run {c : MethodContext} (h : Related R f e) (hfits : c.Fits f)
    (huniform : ins.action.isUniform = true) (hcheck : c.check ins f = .ok ())
    (hf : c.run ins f = .ok out) : ∃ out', c.run ins e = .ok out' ∧ Related R out out' := by
  have hvalues := (check_eq_ok.1 hcheck).2
  cases hact : ins.action with
    simp only [MethodContext.run, MethodContext.checkValues, hact] at hf hvalues ⊢
  | nop | goto | ret | iinc =>
    cases hf
    exact ⟨e, rfl, h⟩
  | constNull => exact h.push hR (hR.of_isPlain rfl) hf
  | const n => exact h.push hR (hR.of_isPlain (isPlain_ofNumeric n)) hf
  | loadConst =>
    obtain ⟨t, ht, hf⟩ := bind_eq_ok.1 hf
    simp only [ht, bind, Except.bind]
    exact h.push hR (hR.of_isPlain (isPlain_constantType ht)) hf
  | load kind i =>
    obtain ⟨-, got, hgot, -, hloads⟩ := checkLoad_eq_ok.1 hvalues
    obtain ⟨w, hw, hvw⟩ := h.getLocal hgot hloads.ne_unknown
    simp only [getLocal_eq_ok.2 hgot, bind, Except.bind] at hf
    simp only [getLocal_eq_ok.2 hw, bind, Except.bind]
    exact h.push hR hvw hf
  | store => exact h.store hR hf
  | arrayLoad access =>
    refine h.loadElement hR ?_ hf
    rintro rfl
    rw [hact] at huniform
    cases huniform
  | arrayStore | branch | switch | monitor => exact h.popN hf
  | stack op => exact h.runStackOp hR hfits hact hcheck hf
  | arith _ _ result => exact h.replace hR (hR.of_isPlain (isPlain_ofNumeric result)) hf
  | leave value =>
    cases value with
    | none =>
      cases hf
      exact ⟨e, rfl, h⟩
    | some => exact h.popN hf
  | jsr => exact h.push hR (hR.same rfl (by simp)) hf
  | field => exact h.runField hR hf
  | newArray | arrayLength | instanceOf => exact h.replace hR (hR.of_isPlain rfl) hf
  | newRefArray =>
    simp only [bind_eq_ok] at hf
    obtain ⟨f', hpop, name, hname, element, helement, hf⟩ := hf
    obtain ⟨e', hpop', h'⟩ := h.popN hpop
    simp only [hpop', hname, helement, bind, Except.bind]
    refine h'.push hR (hR.same ?_ (push_eq_ok.1 hf).1) hf
    cases element <;> rfl
  | newMultiArray | checkCast =>
    simp only [bind_eq_ok] at hf
    obtain ⟨name, hname, type, htype, hf⟩ := hf
    simp only [hname, htype, bind, Except.bind]
    exact h.replace hR (hR.of_isPlain (isPlain_classType htype)) hf
  | invoke | allocate | raise =>
    rw [hact] at huniform
    cases huniform
  | wide => cases hf

end Uniform

end Related

end Frame

end Bytecode
