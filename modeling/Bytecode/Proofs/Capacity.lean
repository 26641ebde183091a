import Bytecode.Proofs.Checking
import Bytecode.Proofs.Covering
import Bytecode.Proofs.Prepared
import Bytecode.Proofs.StoredFrames

/-!
Instructions stay within the limits of their frames.

Main statements: `run_proceeds`, an instruction whose demands hold can be run, and its frame keeps
the limits; `run_exchanges`, the slots in use change by its stack effect unless it throws.
-/
namespace Bytecode

open Bytecode.Frame FieldType List

/-! ### The instruction table -/

/-- The slots that a move on the stack takes and leaves. -/
def StackOp.slots : StackOp → Nat × Nat
  | .pop => (1, 0)
  | .pop2 => (2, 0)
  | .dup => (1, 2)
  | .dupX1 => (2, 3)
  | .dupX2 => (3, 4)
  | .dup2 => (2, 4)
  | .dup2X1 => (3, 5)
  | .dup2X2 => (4, 6)
  | .swap => (2, 2)

/-- The operands of a test. -/
def Condition.operands : Condition → Nat
  | .intZero | .refNull => 1
  | .intPair | .refPair => 2

/-- The slots that an action takes and leaves, unless that depends on its operands. -/
def Action.slots? : Action → Option (Nat × Nat)
  | .nop | .iinc | .goto | .ret | .leave none | .wide => some (0, 0)
  | .constNull | .jsr | .allocate => some (0, 1)
  | .const n => some (0, (ValueType.ofNumeric n).size)
  | .loadConst twoSlots => some (0, if twoSlots then 2 else 1)
  | .load kind _ => some (0, kind.size)
  | .store kind _ | .leave (some kind) => some (kind.size, 0)
  | .arrayLoad access => some (2, (Frame.elementType access).size)
  | .arrayStore access => some (2 + (Frame.elementType access).size, 0)
  | .stack op => some op.slots
  | .arith top none result =>
    some ((ValueType.ofNumeric top).size, (ValueType.ofNumeric result).size)
  | .arith top (some next) result =>
    some ((ValueType.ofNumeric top).size + (ValueType.ofNumeric next).size,
      (ValueType.ofNumeric result).size)
  | .branch condition => some (condition.operands, 0)
  | .switch | .raise | .monitor => some (1, 0)
  | .newArray | .newRefArray | .arrayLength | .checkCast | .instanceOf => some (1, 1)
  | .field _ | .invoke _ | .newMultiArray => none

theorem Action.of_slots_eq_none {action : Action} (h : action.slots? = none) :
    (∃ access, action = .field access) ∨ (∃ kind, action = .invoke kind) ∨
      action = .newMultiArray := by
  unfold slots? at h
  split at h <;> cases h <;> simp

/-- The instruction table counts the slots of every action rightly. -/
theorem Opcode.info_slots (op : Opcode) :
    ∀ slots ∈ op.action.slots?, op.info.pops = some slots.1 ∧ op.info.pushes = some slots.2 := by
  have hall : ∀ i : Fin 202, ∀ slots ∈ (Opcode.mk i).action.slots?,
      (Opcode.mk i).info.pops = some slots.1 ∧ (Opcode.mk i).info.pushes = some slots.2 := by
    decide +kernel
  exact hall op.index

theorem Opcode.format_of_wide (op : Opcode) (h : op.action = .wide) : op.format = .wide := by
  have hall : ∀ i : Fin 202, (Opcode.mk i).action = .wide → (Opcode.mk i).format = .wide := by
    decide +kernel
  exact hall op.index h

namespace MethodContext

variable {c : MethodContext} {f out : Frame} {ins : Instruction} {t : ValueType}

theorem stackEffect_of_slots {slots : Nat × Nat} (h : ins.action.slots? = some slots) :
    c.stackEffect ins = .ok slots := by
  obtain ⟨hpops, hpushes⟩ := ins.op.info_slots slots h
  unfold stackEffect
  split
  · next hact => simp [hact, Action.slots?] at h
  · next hact => simp [hact, Action.slots?] at h
  · next hact => simp [hact, Action.slots?] at h
  · simp [hpops, hpushes, pure, Except.pure]

/-! ### Limits -/

/-- The limits of the method hold in a frame, and every entry of its stack is a value. -/
structure Fits (c : MethodContext) (f : Frame) : Prop where
  max : f.stack.max = c.method.maxStack
  room : (slotsOf f.stack.values : Int) ≤ f.stack.max
  values : ValueType.unknown ∉ f.stack.values
  locals : f.locals.size = c.method.maxLocals.toNat

/-- A step that succeeds and keeps the limits. -/
def Proceeds (c : MethodContext) (r : Except InternalError Frame) : Prop :=
  ∃ out, r = .ok out ∧ c.Fits out

/-- A step that proceeds, and takes and leaves these numbers of slots. -/
def Exchanges (c : MethodContext) (f : Frame) (slots : Nat × Nat) (r : Except InternalError Frame) :
    Prop :=
  ∃ out, r = .ok out ∧ c.Fits out ∧
    slotsOf out.stack.values + slots.1 = slotsOf f.stack.values + slots.2

/-- The entries on the top of the stack, by their number and their slots. -/
def TopSlots (f : Frame) (n pops : Nat) : Prop :=
  n ≤ f.stack.values.length ∧ slotsOf (f.stack.values.take n) = pops

variable {l : List ValueType} {pops n : Nat} {u v got marker : ValueType} {kind : Kind}
  {name : String} {ref : MemberRef} {args : List FieldType} {slots : Nat × Nat}

theorem Exchanges.proceeds {r : Except InternalError Frame} (h : c.Exchanges f slots r) :
    c.Proceeds r := by
  obtain ⟨out, hout, hfits, -⟩ := h
  exact ⟨out, hout, hfits⟩

theorem lt_length_of_getElem? {i : Nat} (h : l[i]? = some t) : i < l.length :=
  (List.getElem?_eq_some_iff.1 h).1

theorem TopSlots.one (ht : f.stack.values[0]? = some t) (hsize : t.size = pops) :
    TopSlots f 1 pops := by
  obtain ⟨l, hl⟩ := exists_cons_of_getElem?_zero ht
  simp [TopSlots, hl, hsize]

theorem TopSlots.two (ht : f.stack.values[0]? = some t) (hu : f.stack.values[1]? = some u)
    (hsize : t.size + u.size = pops) : TopSlots f 2 pops := by
  obtain ⟨l, hl⟩ := exists_cons_cons_of_getElem? ht hu
  simp [TopSlots, hl, hsize]

theorem TopSlots.three (ht : f.stack.values[0]? = some t) (hu : f.stack.values[1]? = some u)
    (hv : f.stack.values[2]? = some v) (hsize : t.size + u.size + v.size = pops) :
    TopSlots f 3 pops := by
  obtain ⟨l, hl⟩ := exists_cons_cons_cons_of_getElem? ht hu hv
  simp [TopSlots, hl, ← hsize, Nat.add_assoc]

theorem TopSlots.ints (hints : ∀ i < n, f.stack.values[i]? = some .int) : TopSlots f n n := by
  induction n with
  | zero => exact ⟨Nat.zero_le _, rfl⟩
  | succ n ih =>
    have hlast := hints n (Nat.lt_succ_self n)
    obtain ⟨-, hslots⟩ := ih fun i hi => hints i (Nat.lt_succ_of_lt hi)
    refine ⟨lt_length_of_getElem? hlast, ?_⟩
    rw [take_add_one, hlast, slotsOf_append, hslots]
    rfl

namespace Fits

theorem withValues (hf : c.Fits f) {vs : List ValueType} (hroom : (slotsOf vs : Int) ≤ f.stack.max)
    (hvalues : ValueType.unknown ∉ vs) : c.Fits (f.withValues vs) :=
  { hf with room := hroom, values := hvalues }

theorem idle (hf : c.Fits f) : c.Exchanges f (0, 0) (.ok f) :=
  ⟨f, rfl, hf, rfl⟩

theorem push (hf : c.Fits f) (ht : t ≠ .unknown)
    (hroom : (t.size : Int) + slotsOf f.stack.values ≤ f.stack.max) :
    c.Exchanges f (0, t.size) (f.push t) := by
  refine ⟨_, push_eq_ok.2 ⟨ht, by omega, rfl⟩, hf.withValues ?_ ?_, ?_⟩
  · simp only [slotsOf_cons]
    omega
  · rw [mem_cons, not_or]
    exact ⟨ht.symm, hf.values⟩
  · exact (slotsOf_cons t _).trans (Nat.add_comm _ _)

theorem drop (hf : c.Fits f) (n : Nat) : c.Fits (f.withValues (f.stack.values.drop n)) := by
  have hslots := slotsOf_drop f.stack.values n
  have hroom := hf.room
  exact hf.withValues (by omega) fun h => hf.values (mem_of_mem_drop h)

theorem popN (hf : c.Fits f) (htop : TopSlots f n pops) : c.Exchanges f (pops, 0) (f.popN n) := by
  refine ⟨_, popN_eq_ok.2 ⟨htop.1, rfl⟩, hf.drop n, ?_⟩
  rw [← htop.2]
  exact (Nat.add_comm _ _).trans (slotsOf_drop f.stack.values n)

theorem replace (hf : c.Fits f) (htop : TopSlots f n pops) (ht : t ≠ .unknown)
    (hroom : (t.size : Int) + slotsOf f.stack.values ≤ f.stack.max + pops) :
    c.Exchanges f (pops, t.size) (f.replace n t) := by
  have hdrop := slotsOf_drop f.stack.values n
  rw [htop.2] at hdrop
  obtain ⟨out, hout, hfits, hslots⟩ := (hf.drop n).push ht (by
    simp only [withValues_values, withValues_max]
    omega)
  obtain ⟨-, hroom', rfl⟩ := push_eq_ok.1 hout
  refine ⟨_, replace_eq_ok.2 ⟨htop.1, ht, hroom', rfl⟩, hfits, ?_⟩
  simp only [withValues_values] at hslots ⊢
  omega

theorem tail (hf : c.Fits f) (hv : f.stack.values = t :: l) : c.Fits (f.withValues l) := by
  have hdrop := hf.drop 1
  rwa [hv] at hdrop

end Fits

/-! ### Moves on the stack -/

/-- Popped entries can be pushed again, in any order and number for which there is room. -/
theorem Fits.moves (hf : c.Fits f) (top : List ValueType) {types : List ValueType}
    (hv : f.stack.values = top ++ l) (hne : types ≠ []) (htypes : ∀ t ∈ types, t ∈ top)
    (hslots : (slotsOf top, slotsOf types) = slots)
    (hroom : (slots.2 : Int) + slotsOf f.stack.values ≤ f.stack.max + slots.1) :
    c.Exchanges f slots ((f.withValues l).pushAll types) := by
  subst hslots
  have hknown : ∀ t ∈ types, t ≠ .unknown := by
    rintro t ht rfl
    exact hf.values (hv ▸ mem_append_left l (htypes _ ht))
  have hvalues := hf.values
  simp only [hv, slotsOf_append, mem_append, not_or] at hroom hvalues
  refine ⟨_, (pushAll_eq_ok hne).2 ⟨hknown, ?_, rfl⟩, hf.withValues ?_ ?_, ?_⟩
  · simp only [withValues_values, withValues_max]
    omega
  · simp only [withValues_values, slotsOf_append, slotsOf_reverse]
    omega
  · simp only [withValues_values, mem_append, mem_reverse, not_or]
    exact ⟨fun h => hknown _ h rfl, hvalues.2⟩
  · simp only [withValues_values, slotsOf_append, slotsOf_reverse, hv]
    omega

/-- A move on the stack can be made if the entries have the sizes that it divides. -/
theorem runStackOp_exchanges {op : StackOp} (hf : c.Fits f)
    (hdivides : Frame.Divides op (f.stack.values.map ValueType.size))
    (hroom : (op.slots.2 : Int) + slotsOf f.stack.values ≤ f.stack.max + op.slots.1) :
    c.Exchanges f op.slots (f.runStackOp ins op) := by
  generalize hsizes : f.stack.values.map ValueType.size = sizes at hdivides
  cases hdivides with simp only [map_eq_cons_iff, StackOp.slots] at hsizes hroom ⊢
  | pop =>
    obtain ⟨a, l, hv, ha, -⟩ := hsizes
    exact hf.popN (by simp [TopSlots, hv, ha])
  | pop2 =>
    obtain ⟨a, _, hv, ha, b, l, rfl, hb, -⟩ := hsizes
    simp only [runStackOp, pop_of_values hv, bind, Except.bind, ha, if_true]
    refine ⟨f.withValues l, rfl, (hf.tail hv).tail rfl, ?_⟩
    simp [hv, ha, hb, Nat.add_comm, Nat.add_left_comm]
  | pop2Wide =>
    obtain ⟨a, l, hv, ha, -⟩ := hsizes
    simp only [runStackOp, pop_of_values hv, bind, Except.bind, ha]
    refine ⟨_, rfl, hf.tail hv, ?_⟩
    simp [hv, ha, Nat.add_comm]
  | dup =>
    obtain ⟨a, l, hv, ha, -⟩ := hsizes
    have hpeek : f.stack.peek 0 = .ok a := Stack.peek_eq_ok.2 (by simp [hv])
    simp only [runStackOp, hpeek, bind, Except.bind]
    obtain ⟨out, hout, hfits, hslots⟩ :=
      hf.push (t := a) (fun heq => hf.values (by simp [hv, heq])) (by omega)
    exact ⟨out, hout, hfits, by omega⟩
  | dup2Wide =>
    obtain ⟨a, l, hv, ha, -⟩ := hsizes
    simp only [runStackOp, pop_of_values hv, bind, Except.bind, ha, if_true]
    exact hf.moves [a] hv (by simp) (by simp) (by simp [ha]) hroom
  | dupX1 | swap =>
    obtain ⟨a, _, hv, ha, b, l, rfl, hb, -⟩ := hsizes
    simp only [runStackOp, pop_of_values hv, pop_withValues, bind, Except.bind]
    exact hf.moves [a, b] hv (by simp) (by simp) (by simp [ha, hb]) hroom
  | dup2 | dupX2Wide | dup2X1Wide =>
    obtain ⟨a, _, hv, ha, b, l, rfl, hb, -⟩ := hsizes
    simp only [runStackOp, pop_of_values hv, pop_withValues, bind, Except.bind, ha, hb]
    exact hf.moves [a, b] hv (by simp) (by simp) (by simp [ha, hb]) hroom
  | dupX2 | dup2X1 =>
    obtain ⟨a, _, hv, ha, b, _, rfl, hb, d, l, rfl, hd, -⟩ := hsizes
    simp only [runStackOp, pop_of_values hv, pop_withValues, bind, Except.bind, ha, hb]
    exact hf.moves [a, b, d] hv (by simp) (by simp) (by simp [ha, hb, hd]) hroom
  | dup2X2 =>
    obtain ⟨a, _, hv, ha, b, _, rfl, hb, d, _, rfl, hd, e, l, rfl, he, -⟩ := hsizes
    have hform : f.dup2X2Form? = some .singles := by simp [dup2X2Form?, hv, ha, hb, hd, he]
    simp only [runStackOp, hform, pop_of_values hv, pop_withValues, bind, Except.bind]
    exact hf.moves [a, b, d, e] hv (by simp) (by simp) (by simp [ha, hb, hd, he]) hroom
  | dup2X2Over | dup2X2Under =>
    obtain ⟨a, _, hv, ha, b, _, rfl, hb, d, l, rfl, hd, -⟩ := hsizes
    simp only [runStackOp, dup2X2Form?, hv, map_cons, ha, hb, hd,
      pop_of_values hv, pop_withValues, bind, Except.bind]
    exact hf.moves [a, b, d] hv (by simp) (by simp) (by simp [ha, hb, hd]) hroom
  | dup2X2Wides =>
    obtain ⟨a, _, hv, ha, b, l, rfl, hb, -⟩ := hsizes
    simp only [runStackOp, dup2X2Form?, hv, map_cons, ha, hb,
      pop_of_values hv, pop_withValues, bind, Except.bind]
    exact hf.moves [a, b] hv (by simp) (by simp) (by simp [ha, hb]) hroom

/-! ### Instructions -/

theorem check_eq_ok : c.check ins f = .ok () ↔
    c.checkStackAccess ins f = .ok () ∧ c.checkValues ins f = .ok () := by
  simp only [check, bind_eq_ok, exists_unit]

/-- An instruction whose demands hold leaves no more slots than there are. -/
theorem room_of_check {pushes : Nat} (heffect : c.stackEffect ins = .ok (pops, pushes))
    (h : c.checkStackAccess ins f = .ok ()) :
    (pushes : Int) + slotsOf f.stack.values ≤ f.stack.max + pops := by
  obtain ⟨pops', pushes', heffect', -, hroom⟩ := checkStackAccess_eq_ok.1 h
  cases heffect.symm.trans heffect'
  omega

theorem size_pos (t : ValueType) : 1 ≤ t.size := by
  rcases size_eq_one_or_two t with h | h <;> omega

theorem length_le_slotsOf (l : List ValueType) : l.length ≤ slotsOf l := by
  induction l with
  | nil => exact Nat.le_refl _
  | cons t l ih =>
    have hpos := size_pos t
    simp only [length_cons, slotsOf_cons]
    omega

theorem ne_unknown_of_isPlain (h : t.isPlain = true) : t ≠ .unknown := by
  rintro rfl
  cases h

theorem size_of_isObject (h : t.isObject = true) : t.size = 1 := by
  cases t with
  | long | double => cases h
  | _ => rfl

theorem isObject_of_isReference (h : t.isReference = true) : t.isObject = true := by
  simp [ValueType.isObject, h]

theorem size_of_loads (h : kind.Loads t) : t.size = kind.size := by
  cases kind with
  | reference => exact size_of_isObject h
  | numeric n =>
    rw [show t = .ofNumeric n from h]
    cases n <;> rfl

theorem size_of_stores (h : kind.Stores t) : t.size = kind.size := by
  cases kind with
  | reference =>
    rcases h with h | ⟨x, rfl⟩
    · exact size_of_isObject h
    · rfl
  | numeric n => exact size_of_loads (show Kind.Loads (.numeric n) t from h)

theorem size_ofFieldType (type : FieldType) : (ValueType.ofFieldType type).size = type.size := by
  unfold ValueType.ofFieldType size
  split
  · rfl
  · cases type.element <;> rfl

theorem size_of_isReference {type : FieldType} (h : type.isReference = true) : type.size = 1 := by
  unfold isReference at h
  unfold size
  split
  · rfl
  · next harray =>
    simp only [harray, Bool.false_or] at h
    split at h
    · next hobject => simp [hobject]
    · cases h

theorem isReference_of_assignable {h : Hierarchy}
    (hassign : h.assignable got (.reference name) = .ok true) : got.isReference = true := by
  unfold Hierarchy.assignable at hassign
  cases got with
  | null | reference => rfl
  | _ => simp at hassign

theorem size_of_assigns {want : ValueType} (h : c.Assigns got want) : got.size = want.size := by
  cases want with
  | reference name =>
    have hreference := isReference_of_assignable h.2
    exact size_of_isObject (isObject_of_isReference hreference)
  | _ => exact congrArg ValueType.size (show got = _ from h)

theorem size_of_accesses {access : ElementAccess} (h : Frame.Accesses access got) :
    got.size = 1 := by
  rcases h with rfl | ⟨component, hcomponent, -⟩
  · rfl
  · cases got with
    | reference => rfl
    | _ => simp [ValueType.component?, ValueType.isArray] at hcomponent

theorem size_of_holds {r : ResolvedField} {isPut : Bool} (h : c.Holds r isPut got) :
    got.size = 1 := by
  rcases h with rfl | h | ⟨-, hassign⟩
  · rfl
  · simp only [Bool.and_eq_true] at h
    refine size_of_isObject ?_
    cases got <;> simp_all [ValueType.isUninitializedThis, ValueType.isObject,
      ValueType.isUninitialized]
  · exact size_of_isObject (isObject_of_isReference (isReference_of_assignable hassign))

theorem Returns.exists_top (h : c.Returns f (some kind)) :
    ∃ got, f.stack.values[0]? = some got ∧ got.size = kind.size := by
  unfold Returns at h
  split at h
  · next heq _ => cases heq
  · next heq _ =>
    cases heq
    obtain ⟨-, got, hgot, hreference, -⟩ := h
    exact ⟨got, hgot, size_of_isObject (isObject_of_isReference hreference)⟩
  · next n _ heq _ =>
    cases heq
    exact ⟨_, h.2, size_of_loads (show Kind.Loads (.numeric n) _ from rfl)⟩
  · exact h.elim

theorem Fits.place (hf : c.Fits f) (t : ValueType) {i : Nat} (hi : i < f.locals.size)
    (hhalf : t.size = 2 → i + 1 < f.locals.size) : c.Exchanges f (0, 0) (f.place i t) := by
  refine ⟨_, place_eq_ok.2 ⟨hi, hhalf, rfl⟩, { hf with locals := ?_ }, rfl⟩
  rw [← hf.locals]
  unfold storedLocals
  split <;> simp

theorem Fits.store (hf : c.Fits f) (hcheck : f.checkStore ins kind = .ok ()) :
    c.Exchanges f (kind.size, 0) (f.store ins.index) := by
  obtain ⟨hslot, got, hgot, hstores⟩ := checkStore_eq_ok.1 hcheck
  obtain ⟨l, hv⟩ := exists_cons_of_getElem?_zero hgot
  have hsize := size_of_stores hstores
  have hpos := size_pos got
  rw [Frame.store, pop_of_values hv]
  obtain ⟨out, hout, hfits, hsame⟩ :=
    (hf.tail hv).place got (i := ins.index) (by simp; omega) (by simp; omega)
  refine ⟨out, hout, hfits, ?_⟩
  simp only [withValues_values, hv, slotsOf_cons] at hsame ⊢
  omega

theorem Fits.loadElement (hf : c.Fits f) {access : ElementAccess}
    (hcheck : f.checkArrayLoad ins access = .ok ())
    (hroom : ((elementType access).size : Int) + slotsOf f.stack.values ≤ f.stack.max + 2) :
    c.Exchanges f (2, (elementType access).size) (f.loadElement ins access) := by
  obtain ⟨hindex, array, harray, haccess⟩ := checkArrayLoad_eq_ok.1 hcheck
  obtain ⟨l, hv⟩ := exists_cons_cons_of_getElem? hindex harray
  have hbefore : slotsOf f.stack.values = slotsOf l + 2 := by
    have hint : ValueType.int.size = 1 := rfl
    simp only [hv, slotsOf_cons, size_of_accesses haccess, hint]
    omega
  have hpush : ∀ t : ValueType, t ≠ .unknown → t.size = (elementType access).size →
      c.Exchanges f (2, (elementType access).size) ((f.withValues l).push t) := by
    intro t ht hsize
    obtain ⟨out, hout, hfits, hslots⟩ := Fits.push ((hf.tail hv).tail rfl) ht (by
      simp only [withValues_values, withValues_max]
      omega)
    refine ⟨out, hout, hfits, ?_⟩
    simp only [withValues_values] at hslots
    omega
  simp only [Frame.loadElement, pop_of_values hv, pop_withValues, bind, Except.bind]
  split
  · next hne => exact hpush _ (by cases access <;> simp_all [elementType]) rfl
  · next href =>
    simp only [not_not] at href
    subst href
    split
    · exact hpush .null (by simp) rfl
    · next hnull =>
      obtain ⟨component, hcomponent, hreference⟩ := haccess.resolve_left hnull
      simp only [hcomponent]
      refine hpush _ (ne_unknown_of_isPlain (ValueType.isPlain_ofFieldType component)) ?_
      rw [size_ofFieldType]
      exact size_of_isReference (by simpa using hreference)

theorem Fits.storeElement (hf : c.Fits f) {access : ElementAccess}
    (hcheck : f.checkArrayStore ins access = .ok ()) :
    c.Exchanges f (2 + (elementType access).size, 0) (f.popN 3) := by
  obtain ⟨⟨v, hv, hkind⟩, hindex, got, hgot, haccess⟩ := checkArrayStore_eq_ok.1 hcheck
  have hsize : v.size = (elementType access).size := by
    split at hkind
    · next hreference =>
      rw [hreference, size_of_isObject (isObject_of_isReference hkind)]
      rfl
    · rw [hkind]
  refine hf.popN (.three hv hindex hgot ?_)
  rw [size_of_accesses haccess, hsize]
  exact Nat.add_comm _ 2

theorem Fits.raise (hf : c.Fits f) (h : f.stack.values[0]? = some t) : c.Proceeds f.raise := by
  obtain ⟨l, hv⟩ := exists_cons_of_getElem?_zero h
  have hroom := hf.room
  have hempty : c.Fits (f.withValues []) := hf.withValues (by simp; omega) (by simp)
  simp only [Frame.raise, pop_of_values hv, bind, Except.bind]
  refine (hempty.push ?_ ?_).proceeds
  · split
    · simp
    · exact fun heq => hf.values (by simp [hv, heq])
  · simp only [hv, slotsOf_cons] at hroom
    have hpos := size_pos t
    split
    · simp [ValueType.size]
      omega
    · simp
      omega

/-- The slots that a field access takes and leaves. -/
def fieldSlots (access : FieldAccess) (type : FieldType) : Nat × Nat :=
  match access with
  | .getStatic => (0, type.size)
  | .putStatic => (type.size, 0)
  | .get => (1, type.size)
  | .put => (1 + type.size, 0)

theorem stackEffect_field {access : FieldAccess} {type : FieldType}
    (hact : ins.action = .field access) (hoperand : c.fieldOperand ins = .ok (ref, type)) :
    c.stackEffect ins = .ok (fieldSlots access type) := by
  cases access <;>
    simp [stackEffect, hact, hoperand, fieldSlots, bind, Except.bind, pure, Except.pure]

theorem resolveField_ok {r : ResolvedField} (h : c.resolveField ins = .ok r) :
    c.hierarchy.resolveField r.ref.owner r.ref.name r.ref.descriptor = .ok (r.field, r.decl) ∧
      ∃ type, c.fieldOperand ins = .ok (r.ref, type) ∧ r.type = .ofFieldType type := by
  simp only [resolveField, bind_eq_ok, known_eq_ok, Prod.exists, exists_unit, resolved_eq_ok,
    ite_reject_bind_eq_ok, pure_eq_ok] at h
  obtain ⟨ref, type, hoperand, -, field, decl, hfield, _, -, -, rfl⟩ := h
  exact ⟨hfield, type, hoperand, rfl⟩

/-- The slots of a field access are those of the object and of the field. -/
theorem runField_exchanges {access : FieldAccess} {type : FieldType} (hf : c.Fits f)
    (hoperand : c.fieldOperand ins = .ok (ref, type)) (hfield : c.checkField ins access f = .ok ())
    (hroom : ((fieldSlots access type).2 : Int) + slotsOf f.stack.values ≤
      f.stack.max + (fieldSlots access type).1) :
    c.Exchanges f (fieldSlots access type) (c.runField ins access f) := by
  have hplain := ne_unknown_of_isPlain (ValueType.isPlain_ofFieldType type)
  obtain ⟨r, hr, -, hstore, hobject⟩ := checkField_eq_ok.1 hfield
  have htype : r.type = .ofFieldType type := by
    obtain ⟨-, type', hoperand', htype⟩ := resolveField_ok hr
    cases hoperand.symm.trans hoperand'
    exact htype
  simp only [runField, hoperand, bind, Except.bind]
  cases access with simp only [fieldSlots, ← size_ofFieldType, ← htype] at hroom ⊢
  | getStatic => exact hf.push (htype ▸ hplain) (by omega)
  | putStatic =>
    obtain ⟨⟨got, hgot, hassigns⟩, -⟩ := checkFieldStore_eq_ok.1 (hstore (by simp))
    exact hf.popN (.one hgot (size_of_assigns hassigns))
  | get =>
    obtain ⟨got, hgot, hholds, -⟩ := checkFieldObject_eq_ok.1 (hobject (by simp))
    exact hf.replace (.one (by simpa using hgot) (size_of_holds hholds)) (htype ▸ hplain) hroom
  | put =>
    obtain ⟨⟨value, hvalue, hassigns⟩, -⟩ := checkFieldStore_eq_ok.1 (hstore (by simp))
    obtain ⟨got, hgot, hholds, -⟩ := checkFieldObject_eq_ok.1 (hobject (by simp))
    refine hf.popN (.two hvalue (by simpa using hgot) ?_)
    rw [size_of_assigns hassigns, size_of_holds hholds, Nat.add_comm]

theorem resolveMethod_ok {kind : InvokeKind} {r : ResolvedMethod}
    (h : c.resolveMethod ins kind = .ok r) : c.methodOperand ins kind = .ok (r.ref, r.type) ∧
      (kind ≠ .ofDynamic → ∃ target, r.target = some target) := by
  simp only [resolveMethod, bind_eq_ok, known_eq_ok, Prod.exists] at h
  obtain ⟨ref, type, hoperand, h⟩ := h
  split at h
  · next hdynamic =>
    cases h
    exact ⟨hoperand, fun hne => absurd hdynamic hne⟩
  · split at h
    · simp only [bind_eq_ok, exists_unit, resolved_eq_ok, Prod.exists, ite_reject_bind_eq_ok,
        pure_eq_ok] at h
      obtain ⟨-, method, decl, -, -, _, -, -, rfl⟩ := h
      exact ⟨hoperand, fun _ => ⟨_, rfl⟩⟩
    · simp only [bind_eq_ok, resolved_eq_ok, Prod.exists, ite_reject_bind_eq_ok, pure_eq_ok] at h
      obtain ⟨method, decl, -, -, _, -, -, rfl⟩ := h
      exact ⟨hoperand, fun _ => ⟨_, rfl⟩⟩

theorem argumentSlots_eq (type : MethodType) : type.argumentSlots = (type.args.map size).sum := by
  unfold MethodType.argumentSlots
  induction type.args with
  | nil => rfl
  | cons t args ih => simp [ih]

theorem sum_size_eq (h : Forall₂ (fun got arg => c.Assigns got (.ofFieldType arg)) l args) :
    (args.map size).sum = slotsOf l := by
  induction h with
  | nil => rfl
  | @cons got arg _ _ hassigns _ ih =>
    have hsize := size_of_assigns hassigns
    rw [size_ofFieldType] at hsize
    simp only [map_cons, sum_cons, slotsOf_cons, ih, hsize]

theorem arguments_of_check (h : c.checkArguments ins args f = .ok ()) :
    TopSlots f args.length (args.map size).sum := by
  rw [checkArguments_eq_ok] at h
  have hlength : args.length ≤ f.stack.values.length := by
    cases args with
    | nil => exact Nat.zero_le _
    | cons arg args =>
      obtain ⟨got, hgot, -⟩ := h 0 arg rfl
      have hlt := lt_length_of_getElem? hgot
      simp only [length_cons] at hlt ⊢
      omega
  refine ⟨hlength, ?_⟩
  have hall : Forall₂ (fun got arg => c.Assigns got (.ofFieldType arg))
      (f.stack.values.take args.length) args.reverse := by
    rw [List.forall₂_iff_get]
    refine ⟨by simp [hlength], fun i hi hi' => ?_⟩
    simp only [length_reverse] at hi'
    obtain ⟨got, hgot, hassigns⟩ := h (args.length - 1 - i) _ (getElem?_eq_getElem (by omega))
    rw [show args.length - 1 - (args.length - 1 - i) = i by omega] at hgot
    have hget := (List.getElem?_eq_some_iff.1 hgot).2
    simpa [hget, getElem_reverse] using hassigns
  have hsum := sum_size_eq hall
  rw [map_reverse, sum_reverse] at hsum
  exact hsum.symm

theorem slotsOf_initialized (hmarker : marker.isUninitialized = true) (l : List ValueType) :
    slotsOf (l.map fun t => if t = marker then marker.initialized else t) = slotsOf l := by
  have hsize : ∀ t : ValueType, (if t = marker then marker.initialized else t).size = t.size := by
    intro t
    split
    · next heq =>
      have hobject : marker.isObject = true := by simp [ValueType.isObject, hmarker]
      rw [heq, size_of_isObject hobject]
      rfl
    · rfl
  induction l with
  | nil => rfl
  | cons t l ih => simp [ih, hsize]

theorem Fits.initializeObject (hf : c.Fits f) (hmarker : marker.isUninitialized = true) :
    c.Fits (f.initializeObject marker) := by
  refine { max := hf.max, room := ?_, values := ?_, locals := ?_ }
  · show (slotsOf (f.stack.values.map _) : Int) ≤ f.stack.max
    rw [slotsOf_initialized hmarker]
    exact hf.room
  · show ValueType.unknown ∉ f.stack.values.map _
    intro h
    obtain ⟨t, ht, heq⟩ := mem_map.1 h
    split at heq
    · cases heq
    · exact hf.values (heq ▸ ht)
  · simpa [Frame.initializeObject] using hf.locals

theorem Fits.popN_result (hf : c.Fits f) (type : MethodType) (htop : TopSlots f n pops)
    (hroom : (type.resultSlots : Int) + slotsOf f.stack.values ≤ f.stack.max + pops) :
    c.Exchanges f (pops, type.resultSlots) (do
      let f ← f.popN n
      match type.result with
      | some result => f.push (.ofFieldType result)
      | none => return f) := by
  cases hresult : type.result with simp only [MethodType.resultSlots, hresult] at hroom ⊢
  | none =>
    simpa using hf.popN htop
  | some result =>
    rw [← size_ofFieldType] at hroom ⊢
    exact hf.replace htop (ne_unknown_of_isPlain (ValueType.isPlain_ofFieldType result)) hroom

theorem isUninitialized_of_checkConstructorCall {owner : String}
    (h : c.checkConstructorCall ins owner got = .ok ()) : got.isUninitialized = true := by
  unfold checkConstructorCall at h
  split at h
  · rfl
  · rfl
  · cases h

/-- The entries that an invocation pops besides the arguments. -/
def receivers (kind : InvokeKind) : Nat :=
  if kind = .ofStatic ∨ kind = .ofDynamic then 0 else 1

/-- What an invocation pops is there: the arguments and the receiver, which is uninitialized if the
method is a constructor. -/
theorem operands_of_checkInvoke {kind : InvokeKind} {type : MethodType}
    (hoperand : c.methodOperand ins kind = .ok (ref, type))
    (hinvoke : c.checkInvoke ins kind f = .ok ()) :
    TopSlots f (type.args.length + receivers kind) (type.argumentSlots + receivers kind) ∧
      (kind = .ofSpecial → ref.name = constructorName → ∃ marker,
        f.stack.values[type.args.length]? = some marker ∧ marker.isUninitialized = true) := by
  obtain ⟨r, hr, harguments, htarget⟩ := checkInvoke_eq_ok.1 hinvoke
  obtain ⟨hoperand', htargets⟩ := resolveMethod_ok hr
  cases hoperand.symm.trans hoperand'
  obtain ⟨hlength, hslots⟩ := arguments_of_check harguments
  rw [← argumentSlots_eq] at hslots
  unfold receivers
  by_cases hkind : kind = .ofStatic ∨ kind = .ofDynamic
  · rw [if_pos hkind]
    refine ⟨⟨hlength, hslots⟩, ?_⟩
    rintro rfl
    simp at hkind
  · rw [if_neg hkind]
    rw [not_or] at hkind
    obtain ⟨target, hsome⟩ := htargets hkind.2
    have hreceiver := htarget target hsome
    rw [if_neg hkind.1] at hreceiver
    obtain ⟨-, -, got, hgot, hcall⟩ := hreceiver
    have hobject : got.isObject = true := by
      unfold ValueType.isObject
      split at hcall
      · simp [isUninitialized_of_checkConstructorCall hcall]
      · simp [(checkReceiver_eq_ok.1 hcall).1]
    refine ⟨⟨lt_length_of_getElem? hgot, ?_⟩, fun _ hname => ?_⟩
    · rw [take_add_one, hgot, slotsOf_append, hslots]
      simp [size_of_isObject hobject]
    · rw [if_pos hname] at hcall
      exact ⟨got, hgot, isUninitialized_of_checkConstructorCall hcall⟩

/-- A constructor is called on an uninitialized object. -/
theorem isUninitialized_of_check {kind : InvokeKind} {type : MethodType} {marker : ValueType}
    (hchecked : c.Checked ins) (hcheck : c.check ins f = .ok ()) (hact : ins.action = .invoke kind)
    (hoperand : c.methodOperand ins kind = .ok (ref, type)) (hname : ref.name = constructorName)
    (hreceiver : f.stack.values[type.args.length]? = some marker) :
    marker.isUninitialized = true := by
  have hinvoke := (check_eq_ok.1 hcheck).2
  simp only [checkValues, hact] at hinvoke
  obtain ⟨ref', type', hoperand', -, hconstructor⟩ := hchecked.invoke hact
  cases hoperand.symm.trans hoperand'
  obtain ⟨marker', hmarker', huninitialized⟩ :=
    (operands_of_checkInvoke hoperand hinvoke).2 (hconstructor hname).1 hname
  cases hreceiver.symm.trans hmarker'
  exact huninitialized

theorem stackEffect_invoke {kind : InvokeKind} {type : MethodType}
    (hact : ins.action = .invoke kind) (hoperand : c.methodOperand ins kind = .ok (ref, type)) :
    c.stackEffect ins = .ok (type.argumentSlots + receivers kind, type.resultSlots) := by
  simp [stackEffect, hact, hoperand, receivers, bind, Except.bind, pure, Except.pure]

theorem runInvoke_exchanges {kind : InvokeKind} {type : MethodType} (hf : c.Fits f)
    (hoperand : c.methodOperand ins kind = .ok (ref, type))
    (hconstructor : ref.name = constructorName → kind = .ofSpecial)
    (hinvoke : c.checkInvoke ins kind f = .ok ())
    (hroom : (type.resultSlots : Int) + slotsOf f.stack.values ≤
      f.stack.max + (type.argumentSlots + receivers kind : Nat)) :
    c.Exchanges f (type.argumentSlots + receivers kind, type.resultSlots)
      (c.runInvoke ins kind f) := by
  obtain ⟨htop, hmarker⟩ := operands_of_checkInvoke hoperand hinvoke
  simp only [runInvoke, hoperand, bind, Except.bind]
  rw [← receivers]
  split
  · next hname =>
    obtain ⟨marker, hpeek, huninitialized⟩ := hmarker (hconstructor hname) hname
    simp only [Stack.peek_eq_ok.2 hpeek]
    generalize hg : (if marker.isUninitializedThis then
      { f.initializeObject marker with thisUninitialized := false }
      else f.initializeObject marker) = g
    have hinit := hf.initializeObject huninitialized
    obtain ⟨hg, hstack⟩ : c.Fits g ∧ g.stack = f.stack.initializeObject marker := by
      rw [← hg]
      split
      · exact ⟨{ hinit with }, rfl⟩
      · exact ⟨hinit, rfl⟩
    -- Every entry keeps its size when the receiver is initialized in the whole frame.
    have hsame : ∀ l : List ValueType, slotsOf (l.map _) = slotsOf l :=
      slotsOf_initialized huninitialized
    have htop : TopSlots g (type.args.length + receivers kind)
        (type.argumentSlots + receivers kind) := by
      simpa [TopSlots, hstack, Stack.initializeObject, ← map_take, hsame] using htop
    obtain ⟨out, hout, hfits, hslots⟩ := hg.popN_result type htop
      (by simpa [hstack, Stack.initializeObject, hsame] using hroom)
    exact ⟨out, hout, hfits, by simpa [hstack, Stack.initializeObject, hsame] using hslots⟩
  · exact hf.popN_result type htop hroom

theorem run_exchanges_of_slots (hf : c.Fits f) (hchecked : c.Checked ins)
    (hraise : ins.action ≠ .raise) (hcheck : c.check ins f = .ok ()) :
    ∀ slots ∈ ins.action.slots?, c.Exchanges f slots (c.run ins f) := by
  obtain ⟨haccess, hvalues⟩ := check_eq_ok.1 hcheck
  have hroom : ∀ {pops pushes}, ins.action.slots? = some (pops, pushes) →
      (pushes : Int) + slotsOf f.stack.values ≤ f.stack.max + pops := fun hslots =>
    room_of_check (stackEffect_of_slots hslots) haccess
  -- What is popped was looked at by the check, and what is pushed has room after that.
  cases hact : ins.action with
    simp only [run, checkValues, hact, Action.slots?, Option.mem_def, Option.some.injEq,
      forall_eq', reduceCtorEq, false_implies, implies_true] at hvalues hroom ⊢
  | nop | goto | ret | iinc => exact hf.idle
  | constNull | jsr => exact hf.push (by simp) (by simpa [ValueType.size] using hroom rfl)
  | const n =>
    exact hf.push (ne_unknown_of_isPlain (ValueType.isPlain_ofNumeric n)) (by simpa using hroom rfl)
  | loadConst twoSlots =>
    obtain ⟨t, ht, hsize⟩ := hchecked.constant hact
    simp only [ht, bind, Except.bind, ← hsize] at hroom ⊢
    exact hf.push (ne_unknown_of_isPlain (isPlain_constantType ht)) (by simpa using hroom rfl)
  | load kind i =>
    obtain ⟨-, got, hgot, -, hloads⟩ := checkLoad_eq_ok.1 hvalues
    simp only [getLocal_eq_ok.2 hgot, bind, Except.bind, ← size_of_loads hloads] at hroom ⊢
    exact hf.push hloads.ne_unknown (by simpa using hroom rfl)
  | store kind i => exact hf.store hvalues
  | arrayLoad access => exact hf.loadElement hvalues (hroom rfl)
  | arrayStore access => exact hf.storeElement hvalues
  | stack op => exact runStackOp_exchanges hf (checkStackOp_eq_ok.1 hvalues) (hroom rfl)
  | arith top next result =>
    have hresult := ne_unknown_of_isPlain (ValueType.isPlain_ofNumeric result)
    cases next with simp only [bind_eq_ok, exists_unit, expect_eq_ok, pure_eq_ok, Option.some.injEq,
      forall_eq'] at hvalues ⊢
    | none => exact hf.replace (.one hvalues.1 rfl) hresult (hroom rfl)
    | some next => exact hf.replace (.two hvalues.1 hvalues.2 rfl) hresult (hroom rfl)
  | branch condition =>
    rw [checkCondition_eq_ok] at hvalues
    cases condition with
    | intZero => exact hf.popN (.one hvalues rfl)
    | intPair => exact hf.popN (.two hvalues.1 hvalues.2 rfl)
    | refPair =>
      obtain ⟨⟨t, ht, hobject⟩, u, hu, hobject'⟩ := hvalues
      exact hf.popN (.two ht hu (by rw [size_of_isObject hobject, size_of_isObject hobject']; rfl))
    | refNull =>
      obtain ⟨t, ht, hreference⟩ := hvalues
      exact hf.popN (.one ht (size_of_isObject (isObject_of_isReference hreference)))
  | switch => exact hf.popN (.one (expect_eq_ok.1 hvalues) rfl)
  | monitor =>
    obtain ⟨t, ht, hobject⟩ := expectObject_eq_ok.1 hvalues
    exact hf.popN (.one ht (size_of_isObject hobject))
  | leave value =>
    cases value with simp only [Option.some.injEq, forall_eq']
    | none => exact hf.idle
    | some kind =>
      obtain ⟨got, hgot, hsize⟩ := (checkReturn_eq_ok.1 hvalues).exists_top
      exact hf.popN (.one hgot hsize)
  | allocate =>
    obtain ⟨name, -, hname, -⟩ := hchecked.className (by simp [hact, Action.namesClass])
    simp only [hname, bind, Except.bind]
    exact hf.push (by simp) (by simpa [ValueType.size] using hroom rfl)
  | newArray => exact hf.replace (.one (expect_eq_ok.1 hvalues) rfl) (by simp) (hroom rfl)
  | newRefArray =>
    obtain ⟨name, element, hname, helement⟩ :=
      hchecked.className (by simp [hact, Action.namesClass])
    simp only [bind_eq_ok, exists_unit, expect_eq_ok] at hvalues
    simp only [hname, helement, bind, Except.bind]
    exact hf.replace (.one hvalues.1 rfl) (by simp [ValueType.arrayOf]) (hroom rfl)
  | arrayLength =>
    obtain ⟨got, hgot, hkind⟩ := checkArrayLength_eq_ok.1 hvalues
    have hreference : got.isReference = true := by
      cases got <;> simp_all [ValueType.isReference, ValueType.isArray]
    exact hf.replace (.one hgot (size_of_isObject (isObject_of_isReference hreference))) (by simp)
      (hroom rfl)
  | raise => exact absurd hact hraise
  | checkCast =>
    obtain ⟨name, element, hname, helement⟩ :=
      hchecked.className (by simp [hact, Action.namesClass])
    simp only [bind_eq_ok, expectReference_eq_ok] at hvalues
    obtain ⟨got, ⟨hgot, hreference⟩, -⟩ := hvalues
    simp only [hname, helement, bind, Except.bind]
    exact hf.replace (.one hgot (size_of_isObject (isObject_of_isReference hreference))) (by simp)
      (hroom rfl)
  | instanceOf =>
    simp only [bind_eq_ok, expectReference_eq_ok] at hvalues
    obtain ⟨got, ⟨hgot, hreference⟩, -⟩ := hvalues
    exact hf.replace (.one hgot (size_of_isObject (isObject_of_isReference hreference))) (by simp)
      (hroom rfl)

/-- An instruction whose demands hold can be run, what it leaves keeps the limits, and the slots in
use change by its stack effect. -/
theorem run_exchanges (hf : c.Fits f) (hchecked : c.Checked ins) (hraise : ins.action ≠ .raise)
    (hcheck : c.check ins f = .ok ()) (heffect : c.stackEffect ins = .ok slots) :
    c.Exchanges f slots (c.run ins f) := by
  obtain ⟨haccess, hvalues⟩ := check_eq_ok.1 hcheck
  have hroom := room_of_check heffect haccess
  cases hslots : ins.action.slots? with
  | some slots' =>
    obtain rfl := Except.ok.inj (heffect.symm.trans (stackEffect_of_slots hslots))
    exact run_exchanges_of_slots hf hchecked hraise hcheck slots hslots
  | none =>
    rcases Action.of_slots_eq_none hslots with ⟨access, hact⟩ | ⟨kind, hact⟩ | hact <;>
      simp only [run, checkValues, hact] at hvalues ⊢
    · obtain ⟨ref, type, -, hoperand, -⟩ := hchecked.field hact
      obtain rfl := Except.ok.inj (heffect.symm.trans (stackEffect_field hact hoperand))
      exact runField_exchanges hf hoperand hvalues hroom
    · obtain ⟨ref, type, hoperand, -, hconstructor⟩ := hchecked.invoke hact
      obtain rfl := Except.ok.inj (heffect.symm.trans (stackEffect_invoke hact hoperand))
      exact runInvoke_exchanges hf hoperand (fun hname => (hconstructor hname).1) hvalues hroom
    · have hmulti : c.stackEffect ins = .ok (ins.count, 1) := by
        simp [stackEffect, hact, pure, Except.pure]
      obtain rfl := Except.ok.inj (heffect.symm.trans hmulti)
      obtain ⟨name, element, hname, helement⟩ :=
        hchecked.className (by simp [hact, Action.namesClass])
      simp only [bind_eq_ok, exists_unit, forM_eq_forM, forM_eq_ok, mem_range,
        expect_eq_ok] at hvalues
      simp only [hname, helement, bind, Except.bind]
      exact hf.replace (.ints hvalues.1) (by simp) hroom

theorem run_proceeds (hf : c.Fits f) (hchecked : c.Checked ins)
    (hcheck : c.check ins f = .ok ()) : c.Proceeds (c.run ins f) := by
  obtain ⟨haccess, hvalues⟩ := check_eq_ok.1 hcheck
  by_cases hraise : ins.action = .raise
  · simp only [run, checkValues, hraise] at hvalues ⊢
    obtain ⟨got, hgot, -⟩ := checkRaise_eq_ok.1 hvalues
    exact hf.raise hgot
  · obtain ⟨pops, pushes, heffect, -⟩ := checkStackAccess_eq_ok.1 haccess
    exact (run_exchanges hf hchecked hraise hcheck heffect).proceeds

end MethodContext

end Bytecode
