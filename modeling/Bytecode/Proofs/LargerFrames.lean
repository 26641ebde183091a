import Bytecode.Proofs.LimitChanges
import Bytecode.Proofs.Limits

/-!
Frames with larger limits.

A larger frame has more room on its stack and more local variables, which are unusable. All that
succeeds on frames succeeds on the larger ones, and gives the larger outcome.

* `Frame.merge_enlarge`: merges;
* `check_enlarge`, `run_enlarge`: the demands of instructions, and what they do;
* `handlerFrame_enlarge`, `initialFrame_enlarge`: the frames that handlers and methods start with.
-/
namespace Bytecode

open Bytecode.Frame

/-! ### Merges -/

section MergeEntries

variable {merge : Nat → ValueType → ValueType → Except Failure ValueType}

theorem mergeEntries_go_self (hsame : ∀ i t, merge i t t = .ok t) (i : Nat)
    (merged tail : List ValueType) (changed : Bool) :
    mergeEntries.go merge i merged changed tail tail = (merged.reverse ++ tail, .ok changed) := by
  induction tail generalizing i merged with
  | nil => rfl
  | cons t tail ih =>
    rw [mergeEntries.go, hsame]
    simp only [bne_self_eq_false, Bool.or_false, ih, List.reverse_cons, List.append_assoc,
      List.singleton_append]

theorem mergeEntries_append (hsame : ∀ i t, merge i t t = .ok t) (tail : List ValueType)
    {mine theirs r : List ValueType} {changed : Bool} (hl : mine.length = theirs.length)
    (h : mergeEntries merge mine theirs = (r, .ok changed)) :
    mergeEntries merge (mine ++ tail) (theirs ++ tail) = (r ++ tail, .ok changed) := by
  -- The loop is followed from any number on, and after anything merged before.
  suffices hgo : ∀ i merged before,
      mergeEntries.go merge i merged before mine theirs = (r, .ok changed) →
        mergeEntries.go merge i merged before (mine ++ tail) (theirs ++ tail) =
          (r ++ tail, .ok changed) from
    hgo 0 [] false h
  clear h
  intro i merged before h
  induction mine generalizing i merged before theirs with
  | nil =>
    cases theirs with
    | nil =>
      cases h
      simpa using mergeEntries_go_self hsame i merged tail _
    | cons => simp at hl
  | cons a mine ih =>
    cases theirs with
    | nil => simp at hl
    | cons b theirs =>
      simp only [List.cons_append]
      rw [mergeEntries.go] at h ⊢
      split at h
      · next d hd => exact ih (by simpa using hl) _ _ _ h
      · cases h

end MergeEntries

namespace Frame

/-- The frame with room for more slots on its stack, and with more local variables after its own, all
of them unusable. -/
def enlarge (f : Frame) (room extra : Nat) : Frame :=
  { f with
    stack := { f.stack with max := f.stack.max + room }
    locals := f.locals ++ Array.replicate extra .unknown }

variable {f g : Frame} {room extra : Nat}

@[simp] theorem enlarge_values : (f.enlarge room extra).stack.values = f.stack.values := rfl

@[simp] theorem enlarge_max : (f.enlarge room extra).stack.max = f.stack.max + room := rfl

@[simp] theorem enlarge_locals :
    (f.enlarge room extra).locals = f.locals ++ Array.replicate extra .unknown := rfl

variable {i : Nat} {t : ValueType} {h : Hierarchy} {m : Frame}

theorem getElem?_enlarge (h : f.locals[i]? = some t) :
    (f.enlarge room extra).locals[i]? = some t := by
  have hi := (Array.getElem?_eq_some_iff.1 h).1
  rw [enlarge_locals, Array.getElem?_append_left hi, h]

theorem size_enlarge : (f.enlarge room extra).locals.size = f.locals.size + extra := by
  simp

theorem same_enlarge : (f.enlarge room extra).same (g.enlarge room extra) = f.same g := by
  have hlocals : ((f.enlarge room extra).locals == (g.enlarge room extra).locals) =
      (f.locals == g.locals) := by
    rw [Bool.eq_iff_iff, beq_iff_eq, beq_iff_eq]
    exact Array.append_left_inj _
  unfold same
  rw [hlocals]
  rfl

theorem setLocal_enlarge (h : f.setLocal i t = .ok g) :
    (f.enlarge room extra).setLocal i t = .ok (g.enlarge room extra) := by
  obtain ⟨hi, rfl⟩ := setLocal_eq_ok.1 h
  refine setLocal_eq_ok.2 ⟨by rw [size_enlarge]; omega, ?_⟩
  simp only [enlarge, Array.setIfInBounds_append_left hi]

theorem storedLocals_append {locals rest : Array ValueType} (hi : i < locals.size)
    (hhalf : t.size = 2 → i + 1 < locals.size) :
    storedLocals (locals ++ rest) i t = storedLocals locals i t ++ rest := by
  unfold storedLocals
  rw [Array.setIfInBounds_append_left hi]
  split
  · next ht =>
    have hi' : i + 1 < (locals.setIfInBounds i t).size := by simpa using hhalf ht
    rw [Array.setIfInBounds_append_left hi']
  · rfl

/-- An unusable variable is no object that waits for its constructor. -/
theorem initializeObject_enlarge {marker : ValueType} (hmarker : marker ≠ .unknown) :
    (f.initializeObject marker).enlarge room extra =
      (f.enlarge room extra).initializeObject marker := by
  simp only [enlarge, initializeObject, Stack.initializeObject, Array.map_append,
    Array.map_replicate, if_neg hmarker.symm]

/-- Larger limits as a change of limits. -/
def LimitChange.enlarge (room extra : Nat) : LimitChange where
  apply f := f.enlarge room extra
  values _ := rfl
  withValues _ _ := rfl
  getLocal h := getElem?_enlarge h
  store hi hhalf := by
    simp only [Frame.enlarge, storedLocals_append hi hhalf]
  receiver _ _ := rfl

theorem merge_enlarge {changed : Bool} (hm : merge h f g = (m, .ok changed)) :
    merge h (f.enlarge room extra) (g.enlarge room extra) =
      (m.enlarge room extra, .ok changed) := by
  have hself : ∀ i t, h.mergeLocal i t t = .ok t := by
    intro i t
    exact if_pos rfl
  obtain ⟨_, _, hstack, hlocals, hflag, hchanged⟩ := merge_eq_ok_iff.1 hm
  obtain ⟨hsize, hslots, hmax, hvalues⟩ := mergeStack_eq_ok.1 hstack
  obtain ⟨hcount, hentries⟩ := mergeLocals_eq_ok.1 hlocals
  refine merge_eq_ok_iff.2 ⟨_, _, mergeStack_eq_ok.2 ⟨hsize, hslots, ?_, hvalues⟩,
    mergeLocals_eq_ok.2 ⟨by simpa using hcount, ?_⟩, hflag, hchanged⟩
  · rw [enlarge_max, enlarge_max, hmax]
  · simpa using mergeEntries_append hself (List.replicate extra .unknown) (by simpa using hcount)
      hentries

end Frame

/-- The method with larger limits. -/
def Method.enlarge (m : Method) (room extra : Nat) : Method :=
  { m with maxStack := m.maxStack + room, maxLocals := m.maxLocals + extra }

/-! ### Instructions -/

namespace MethodContext

variable {c : MethodContext} {g : FlowGraph} {ins : Instruction} {f out : Frame} {room extra : Nat}

theorem checkValues_enlarge (h : c.checkValues ins f = .ok ()) :
    c.checkValues ins (f.enlarge room extra) = .ok () := by
  cases hact : ins.action with simp only [checkValues, hact] at h ⊢
  | load kind =>
    obtain ⟨hsize, got, hgot, hhalf, hloads⟩ := checkLoad_eq_ok.1 h
    refine checkLoad_eq_ok.2 ⟨?_, got, getElem?_enlarge hgot, ?_, hloads⟩
    · rw [size_enlarge]
      omega
    · intro htwo
      exact getElem?_enlarge (hhalf htwo)
  | store kind =>
    obtain ⟨hsize, hstores⟩ := checkStore_eq_ok.1 h
    refine checkStore_eq_ok.2 ⟨?_, hstores⟩
    rw [size_enlarge]
    omega
  | iinc =>
    exact checkIncrement_eq_ok.2 (getElem?_enlarge (checkIncrement_eq_ok.1 h))
  | ret =>
    obtain ⟨x, hx⟩ := checkRet_eq_ok.1 h
    exact checkRet_eq_ok.2 ⟨x, getElem?_enlarge hx⟩
  | _ => exact h

theorem check_enlarge (h : c.check ins f = .ok ()) :
    c.check ins (f.enlarge room extra) = .ok () := by
  obtain ⟨haccess, hvalues⟩ := check_eq_ok.1 h
  obtain ⟨pops, pushes, heffect, hpops, hroom⟩ := checkStackAccess_eq_ok.1 haccess
  refine check_eq_ok.2 ⟨?_, checkValues_enlarge hvalues⟩
  refine checkStackAccess_eq_ok.2 ⟨pops, pushes, heffect, hpops, ?_⟩
  rw [enlarge_values, enlarge_max]
  omega

theorem run_enlarge (hf : c.Fits f) (hout : c.Fits out) (h : c.run ins f = .ok out) :
    c.run ins (f.enlarge room extra) = .ok (out.enlarge room extra) := by
  have hinit : ∀ marker ∈ f.stack.values, (f.initializeObject marker).enlarge room extra =
      (f.enlarge room extra).initializeObject marker := by
    intro marker hmarker
    refine initializeObject_enlarge ?_
    rintro rfl
    exact hf.values hmarker
  have hroom : (slotsOf out.stack.values : Int) ≤ (out.enlarge room extra).stack.max := by
    have hroom := hout.room
    rw [enlarge_max]
    omega
  exact run_carries (φ := .enlarge room extra) hinit out h hroom

/-! ### Frames that are not left by an instruction -/

theorem handlerFrame_enlarge {guard : Guard} {entry : Option Frame}
    (h : handlerFrame guard out entry = .ok f) :
    handlerFrame guard (out.enlarge room extra) (entry.map (·.enlarge room extra)) =
      .ok (f.enlarge room extra) := by
  obtain ⟨stack, hpush, hf⟩ := bind_eq_ok.1 h
  obtain ⟨hcaught, hroom, rfl⟩ := Stack.push_eq_ok.1 hpush
  cases hf
  refine bind_eq_ok.2 ⟨_, Stack.push_eq_ok.2 ⟨hcaught, ?_, rfl⟩, ?_⟩
  · have hmax : (out.enlarge room extra).stack.max = out.stack.max + room := rfl
    simp only [slotsOf_nil, hmax] at hroom ⊢
    omega
  · cases entry <;> rfl

theorem placeArguments_enlarge {args : List FieldType} {slot : Nat}
    (h : placeArguments f slot args = .ok out) :
    placeArguments (f.enlarge room extra) slot args = .ok (out.enlarge room extra) := by
  induction args generalizing f slot with
  | nil =>
    cases h
    rfl
  | cons arg args ih =>
    obtain ⟨f', hplace, h⟩ := bind_eq_ok.1 h
    obtain ⟨hi, hhalf, rfl⟩ := place_eq_ok.1 hplace
    refine bind_eq_ok.2 ⟨_, place_eq_ok.2 ⟨?_, fun ht => ?_, ?_⟩, ih h⟩
    · simp only [enlarge_locals, Array.size_append]
      omega
    · have := hhalf ht
      simp only [enlarge_locals, Array.size_append]
      omega
    · exact (LimitChange.enlarge room extra).store hi hhalf

/-- The surroundings of an instruction when the limits of the method are larger. -/
def enlarge (c : MethodContext) (room extra : Nat) : MethodContext :=
  { c with method := c.method.enlarge room extra }

/-- The frame of a method before its arguments are in their variables. -/
def emptyFrame (c : MethodContext) : Frame :=
  { Frame.empty c.method.maxStack c.method.maxLocals.toNat with
    thisUninitialized := c.startsUninitialized }

theorem emptyFrame_enlarge (hlocals : 0 ≤ c.method.maxLocals) (room extra : Nat) :
    (c.enlarge room extra).emptyFrame = c.emptyFrame.enlarge room extra := by
  have hsize : (c.method.maxLocals + extra).toNat = c.method.maxLocals.toNat + extra := by
    omega
  simp only [emptyFrame, Frame.empty, Frame.enlarge, enlarge, Method.enlarge, hsize,
    Array.replicate_append_replicate]
  rfl

theorem initialFrame_enlarge (hlocals : 0 ≤ c.method.maxLocals) (h : c.initialFrame = .ok f) :
    (c.enlarge room extra).initialFrame = .ok (f.enlarge room extra) := by
  have hempty := emptyFrame_enlarge hlocals room extra
  by_cases hstatic : c.method.isStatic = true
  · have hf : c.initialFrame = placeArguments c.emptyFrame 0 c.type.args := if_pos hstatic
    have hf' : (c.enlarge room extra).initialFrame =
        placeArguments (c.enlarge room extra).emptyFrame 0 c.type.args := if_pos hstatic
    rw [hf] at h
    rw [hf', hempty]
    exact placeArguments_enlarge h
  · have hf : c.initialFrame =
        c.emptyFrame.setLocal 0 _ >>= (placeArguments · 1 c.type.args) := if_neg hstatic
    have hf' : (c.enlarge room extra).initialFrame = (c.enlarge room extra).emptyFrame.setLocal 0 _
        >>= (placeArguments · 1 c.type.args) := if_neg hstatic
    rw [hf] at h
    obtain ⟨f', hset, h⟩ := bind_eq_ok.1 h
    rw [hf', hempty]
    exact bind_eq_ok.2 ⟨_, setLocal_enlarge hset, placeArguments_enlarge h⟩

theorem returnTarget_enlarge {n t : Nat} {chain : CallChain}
    (h : returnTarget g n chain out = .ok t) :
    returnTarget g n chain (out.enlarge room extra) = .ok t := by
  obtain ⟨found, hget, h⟩ := bind_eq_ok.1 h
  refine bind_eq_ok.2 ⟨found, ?_, h⟩
  exact getLocal_eq_ok.2 (getElem?_enlarge (getLocal_eq_ok.1 hget))

theorem leftMarkers_enlarge (key : CallKey) :
    leftMarkers ins key (out.enlarge room extra) = leftMarkers ins key out := by
  have hnone : ∀ n k, ((List.replicate k ValueType.unknown).zipIdx n).filter
      (·.1.isUninitialized) = [] := by
    intro n k
    rw [List.filter_eq_nil_iff]
    rintro ⟨t, i⟩ ht
    obtain ⟨-, -, ht⟩ := List.mem_zipIdx ht
    simp [ht, ValueType.isUninitialized]
  unfold leftMarkers
  simp only [enlarge_locals, Array.toList_append, Array.toList_replicate, List.zipIdx_append,
    List.filter_append, hnone, List.append_nil]
  rfl

end MethodContext

end Bytecode
