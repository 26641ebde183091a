import Mathlib.Logic.Basic
import Bytecode.Proofs.Running

/-!
When the demands of instructions hold: each check passes exactly if the frame has certain values.

These lemmas take the place of the definitions in the proofs about `MethodContext.check`.
-/
namespace Bytecode

open ValueType

/-- What a load accepts in a local variable. -/
def Kind.Loads (kind : Kind) (t : ValueType) : Prop :=
  match kind with
  | .reference => t.isObject = true
  | .numeric n => t = .ofNumeric n

/-- What a store accepts on the stack: a return address too. -/
def Kind.Stores (kind : Kind) (t : ValueType) : Prop :=
  match kind with
  | .reference => t.isObject = true ∨ ∃ x, t = .returnAddress x
  | .numeric n => t = .ofNumeric n

theorem Kind.Loads.ne_unknown {kind : Kind} {got : ValueType} (h : kind.Loads got) :
    got ≠ .unknown := by
  rintro rfl
  cases kind with
  | reference => cases h
  | numeric n => cases n <;> cases h

namespace Frame

variable {f : Frame} {ins : Instruction} {depth size : Nat} {t want : ValueType}

/-! ### Values on the stack -/

@[simp] theorem operand_eq_ok : f.operand depth = .ok t ↔ f.stack.values[depth]? = some t := by
  unfold operand
  split
  · next u hu => simp [hu]
  · next hu => simp [hu]

@[simp] theorem expect_eq_ok : f.expect ins depth want = .ok () ↔
    f.stack.values[depth]? = some want := by
  simp only [expect, bind_eq_ok, operand_eq_ok, ite_reject_eq_ok, not_not, pure_eq_ok, and_true]
  constructor
  · rintro ⟨got, hgot, rfl⟩
    exact hgot
  · intro h
    exact ⟨want, h, rfl⟩

@[simp] theorem expectSize_eq_ok : f.expectSize ins depth size = .ok () ↔
    ∃ t, f.stack.values[depth]? = some t ∧ t.size = size := by
  simp only [expectSize, bind_eq_ok, operand_eq_ok, ite_reject_eq_ok, not_not, pure_eq_ok, and_true]

@[simp] theorem expectReference_eq_ok : f.expectReference ins depth = .ok t ↔
    f.stack.values[depth]? = some t ∧ t.isReference = true := by
  simp only [expectReference, bind_eq_ok, operand_eq_ok, ite_reject_bind_eq_ok, pure_eq_ok,
    Bool.not_eq_true, Bool.not_eq_true', Bool.not_eq_false]
  constructor
  · rintro ⟨got, hgot, -, href, rfl⟩
    exact ⟨hgot, href⟩
  · rintro ⟨hgot, href⟩
    refine ⟨t, hgot, ?_, href, rfl⟩
    cases t <;> simp_all [isReference, isUninitialized]

@[simp] theorem expectObject_eq_ok : f.expectObject ins depth = .ok () ↔
    ∃ t, f.stack.values[depth]? = some t ∧ t.isObject = true := by
  simp only [expectObject, bind_eq_ok, operand_eq_ok, ite_reject_eq_ok, pure_eq_ok,
    Bool.not_eq_true', Bool.not_eq_false, and_true]

/-! ### Local variables -/

@[simp] theorem expectSlot_eq_ok : f.expectSlot ins size = .ok () ↔
    ins.index + size ≤ f.locals.size := by
  simp only [expectSlot, ite_reject_eq_ok, Nat.not_lt, gt_iff_lt, and_true]

theorem checkLoad_eq_ok {kind : Kind} : f.checkLoad ins kind = .ok () ↔
    ins.index + kind.size ≤ f.locals.size ∧ ∃ got, f.locals[ins.index]? = some got ∧
      (kind.size = 2 → f.locals[ins.index + 1]? = some .unknown) ∧ kind.Loads got := by
  have hcast : ((ins.index : Int) + 1) = ((ins.index + 1 : Nat) : Int) := by omega
  simp only [checkLoad, bind_eq_ok, exists_unit, expectSlot_eq_ok, known_eq_ok, hcast,
    getLocal_eq_ok, ite_reject_bind_eq_ok]
  refine and_congr_right fun _ => exists_congr fun got => and_congr_right fun _ => ?_
  have hlast : ∀ x : Except Failure Unit, (x = .ok () ↔ kind.Loads got) →
      ((¬got = .unknown ∧ (if kind.size = 2 then do
          let second ← known (f.getLocal ((ins.index + 1 : Nat) : Int))
          if second ≠ .unknown then do
            ins.reject (.localHalf (ins.index + 1) got second)
            x
          else x
        else x) = .ok ()) ↔
        (kind.size = 2 → f.locals[ins.index + 1]? = some .unknown) ∧ kind.Loads got) := by
    intro x hx
    split
    · next hsize =>
      simp only [bind_eq_ok, known_eq_ok, getLocal_eq_ok, ite_reject_bind_eq_ok, not_not, hx]
      constructor
      · rintro ⟨-, second, hsecond, rfl, hload⟩
        exact ⟨fun _ => hsecond, hload⟩
      · rintro ⟨hsecond, hload⟩
        exact ⟨hload.ne_unknown, _, hsecond hsize, rfl, hload⟩
    · next hsize =>
      rw [hx]
      constructor
      · rintro ⟨-, hload⟩
        exact ⟨fun h => absurd h hsize, hload⟩
      · rintro ⟨-, hload⟩
        exact ⟨hload.ne_unknown, hload⟩
  cases kind with
  | reference =>
    refine hlast _ ?_
    simp only [Kind.Loads, ite_reject_eq_ok, Bool.not_eq_true', Bool.not_eq_false, pure_eq_ok,
      and_true]
  | numeric n =>
    refine hlast _ ?_
    simp only [Kind.Loads, ite_reject_eq_ok, not_not, pure_eq_ok, and_true]

/-! ### Arrays -/

/-- What an access to an array accepts as one. -/
def Accesses (access : ElementAccess) (got : ValueType) : Prop :=
  got = .null ∨ ∃ component, got.component? = some component ∧
    if access = .reference then component.isReference = true
    else component.descriptor ∈ elementDescriptors access

theorem checkStore_eq_ok {kind : Kind} : f.checkStore ins kind = .ok () ↔
    ins.index + kind.size ≤ f.locals.size ∧
      ∃ got, f.stack.values[0]? = some got ∧ kind.Stores got := by
  simp only [checkStore, bind_eq_ok, exists_unit, expectSlot_eq_ok, operand_eq_ok]
  refine and_congr_right fun _ => exists_congr fun got => and_congr_right fun _ => ?_
  cases kind with
  | reference =>
    cases got <;> simp [Kind.Stores, isObject, isReference,
      isUninitialized, pure, Except.pure]
  | numeric n => simp only [Kind.Stores, ite_reject_eq_ok, not_not, pure_eq_ok, and_true]

theorem checkIncrement_eq_ok : f.checkIncrement ins = .ok () ↔
    f.locals[ins.index]? = some .int := by
  simp only [checkIncrement, bind_eq_ok, exists_unit, expectSlot_eq_ok, known_eq_ok,
    getLocal_eq_ok, ite_reject_eq_ok, not_not, pure_eq_ok, and_true]
  constructor
  · rintro ⟨-, got, hgot, rfl⟩
    exact hgot
  · intro h
    exact ⟨(Array.getElem?_eq_some_iff.1 h).1, .int, h, rfl⟩

theorem checkRet_eq_ok : f.checkRet ins = .ok () ↔
    ∃ x, f.locals[ins.index]? = some (.returnAddress x) := by
  simp only [checkRet, bind_eq_ok, exists_unit, expectSlot_eq_ok, known_eq_ok, getLocal_eq_ok]
  constructor
  · rintro ⟨-, got, hgot, h⟩
    split at h
    · exact ⟨_, hgot⟩
    · cases h
  · rintro ⟨x, hx⟩
    exact ⟨(Array.getElem?_eq_some_iff.1 hx).1, _, hx, rfl⟩

theorem checkArray_eq_ok {access : ElementAccess} : f.checkArray ins depth access = .ok () ↔
    ∃ got, f.stack.values[depth]? = some got ∧ Accesses access got := by
  simp only [checkArray, bind_eq_ok, operand_eq_ok]
  refine exists_congr fun got => and_congr_right fun _ => ?_
  by_cases hnull : got = .null
  · simp [hnull, Accesses, pure, Except.pure]
  · rw [if_neg hnull]
    unfold Accesses
    cases hcomponent : got.component? with
    | none => simp [hnull]
    | some component =>
      simp only [hnull, false_or, Option.some.injEq, exists_eq_left']
      split
      · simp only [ite_reject_eq_ok, Bool.not_eq_true', Bool.not_eq_false, pure_eq_ok, and_true]
      · simp only [ite_reject_eq_ok, not_not, pure_eq_ok, and_true]

theorem checkArrayLoad_eq_ok {access : ElementAccess} : f.checkArrayLoad ins access = .ok () ↔
    f.stack.values[0]? = some .int ∧
      ∃ got, f.stack.values[1]? = some got ∧ Accesses access got := by
  simp only [checkArrayLoad, bind_eq_ok, exists_unit, expect_eq_ok, checkArray_eq_ok]

theorem checkArrayStore_eq_ok {access : ElementAccess} : f.checkArrayStore ins access = .ok () ↔
    (∃ v, f.stack.values[0]? = some v ∧
      if access = .reference then v.isReference = true else v = elementType access) ∧
      f.stack.values[1]? = some .int ∧
      ∃ got, f.stack.values[2]? = some got ∧ Accesses access got := by
  unfold checkArrayStore
  split
  · simp only [bind_eq_ok, exists_unit, expectReference_eq_ok, expect_eq_ok, checkArray_eq_ok]
    simp
  · simp only [bind_eq_ok, exists_unit, expect_eq_ok, checkArray_eq_ok]
    simp

theorem checkArrayLength_eq_ok : f.checkArrayLength ins = .ok () ↔
    ∃ got, f.stack.values[0]? = some got ∧ (got = .null ∨ got.isArray = true) := by
  simp only [checkArrayLength, bind_eq_ok, operand_eq_ok, ite_reject_eq_ok, pure_eq_ok, and_true]
  refine exists_congr fun got => and_congr_right fun _ => ?_
  by_cases hnull : got = .null <;> simp [hnull]

theorem checkCondition_eq_ok {condition : Condition} :
    f.checkCondition ins condition = .ok () ↔ match condition with
      | .intZero => f.stack.values[0]? = some .int
      | .intPair => f.stack.values[0]? = some .int ∧ f.stack.values[1]? = some .int
      | .refPair => (∃ t, f.stack.values[0]? = some t ∧ t.isObject = true) ∧
          ∃ t, f.stack.values[1]? = some t ∧ t.isObject = true
      | .refNull => ∃ t, f.stack.values[0]? = some t ∧ t.isReference = true := by
  cases condition <;>
    simp only [checkCondition, bind_eq_ok, exists_unit, expect_eq_ok, expectObject_eq_ok,
      map_eq_ok, expectReference_eq_ok, and_true]

/-! ### Moves on the stack -/

/-- The sizes of the entries that a move on the stack divides, top first. -/
inductive Divides : StackOp → List Nat → Prop
  | pop (l : List Nat) : Divides .pop (1 :: l)
  | dup (l : List Nat) : Divides .dup (1 :: l)
  | pop2 (l : List Nat) : Divides .pop2 (1 :: 1 :: l)
  | pop2Wide (l : List Nat) : Divides .pop2 (2 :: l)
  | dup2 (l : List Nat) : Divides .dup2 (1 :: 1 :: l)
  | dup2Wide (l : List Nat) : Divides .dup2 (2 :: l)
  | dupX1 (l : List Nat) : Divides .dupX1 (1 :: 1 :: l)
  | swap (l : List Nat) : Divides .swap (1 :: 1 :: l)
  | dupX2 (l : List Nat) : Divides .dupX2 (1 :: 1 :: 1 :: l)
  | dupX2Wide (l : List Nat) : Divides .dupX2 (1 :: 2 :: l)
  | dup2X1 (l : List Nat) : Divides .dup2X1 (1 :: 1 :: 1 :: l)
  | dup2X1Wide (l : List Nat) : Divides .dup2X1 (2 :: 1 :: l)
  | dup2X2 (l : List Nat) : Divides .dup2X2 (1 :: 1 :: 1 :: 1 :: l)
  | dup2X2Over (l : List Nat) : Divides .dup2X2 (2 :: 1 :: 1 :: l)
  | dup2X2Under (l : List Nat) : Divides .dup2X2 (1 :: 1 :: 2 :: l)
  | dup2X2Wides (l : List Nat) : Divides .dup2X2 (2 :: 2 :: l)

theorem size_eq_one_or_two (t : ValueType) : t.size = 1 ∨ t.size = 2 := by
  cases t <;> simp [size]

theorem expectSize_sizes : f.expectSize ins depth size = .ok () ↔
    (f.stack.values.map ValueType.size)[depth]? = some size := by
  rw [expectSize_eq_ok, List.getElem?_map, Option.map_eq_some_iff]

theorem operand_bind_eq_ok {x : Except Failure Unit} : (do
      let t ← f.operand depth
      if t.size ≠ 2 then x) = .ok () ↔
    (f.stack.values.map ValueType.size)[depth]? = some 2 ∨
      ((f.stack.values.map ValueType.size)[depth]? = some 1 ∧ x = .ok ()) := by
  simp only [bind_eq_ok, operand_eq_ok, List.getElem?_map, Option.map_eq_some_iff, ite_eq_ok,
    pure_eq_ok, implies_true, and_true]
  constructor
  · rintro ⟨t, ht, hx⟩
    rcases size_eq_one_or_two t with h1 | h2
    · exact .inr ⟨⟨t, ht, h1⟩, hx (by omega)⟩
    · exact .inl ⟨t, ht, h2⟩
  · rintro (⟨t, ht, h2⟩ | ⟨⟨t, ht, h1⟩, hx⟩)
    · exact ⟨t, ht, fun hne => absurd h2 hne⟩
    · exact ⟨t, ht, fun _ => hx⟩

theorem exists_cons_of_getElem?_zero {α : Type} {l : List α} {a : α} (h : l[0]? = some a) :
    ∃ l', l = a :: l' := by
  cases l with
  | nil => cases h
  | cons b l' =>
    cases h
    exact ⟨l', rfl⟩

theorem exists_cons_cons_of_getElem? {α : Type} {l : List α} {a b : α} (ha : l[0]? = some a)
    (hb : l[1]? = some b) : ∃ l', l = a :: b :: l' := by
  obtain ⟨l', rfl⟩ := exists_cons_of_getElem?_zero ha
  obtain ⟨l'', rfl⟩ := exists_cons_of_getElem?_zero hb
  exact ⟨l'', rfl⟩

theorem exists_cons_cons_cons_of_getElem? {α : Type} {l : List α} {a b d : α}
    (ha : l[0]? = some a) (hb : l[1]? = some b) (hd : l[2]? = some d) :
    ∃ l', l = a :: b :: d :: l' := by
  obtain ⟨l', rfl⟩ := exists_cons_cons_of_getElem? ha hb
  obtain ⟨l'', rfl⟩ := exists_cons_of_getElem?_zero hd
  exact ⟨l'', rfl⟩

theorem checkStackOp_eq_ok {op : StackOp} : f.checkStackOp ins op = .ok () ↔
    Divides op (f.stack.values.map ValueType.size) := by
  cases op with
  | pop | dup =>
    rw [checkStackOp, expectSize_sizes]
    generalize f.stack.values.map size = sizes
    constructor
    · intro ha
      obtain ⟨l, rfl⟩ := exists_cons_of_getElem?_zero ha
      constructor
    · intro h
      cases h
      rfl
  | pop2 | dup2 =>
    rw [checkStackOp, operand_bind_eq_ok, expectSize_sizes]
    generalize f.stack.values.map size = sizes
    constructor
    · rintro (ha | ⟨ha, hb⟩)
      · obtain ⟨l, rfl⟩ := exists_cons_of_getElem?_zero ha
        constructor
      · obtain ⟨l, rfl⟩ := exists_cons_cons_of_getElem? ha hb
        constructor
    · intro h
      cases h <;> simp
  | dupX1 | swap =>
    rw [checkStackOp, bind_eq_ok, exists_unit, expectSize_sizes, expectSize_sizes]
    generalize f.stack.values.map size = sizes
    constructor
    · rintro ⟨ha, hb⟩
      obtain ⟨l, rfl⟩ := exists_cons_cons_of_getElem? ha hb
      constructor
    · intro h
      cases h
      simp
  | dupX2 =>
    rw [checkStackOp, bind_eq_ok, exists_unit, expectSize_sizes, operand_bind_eq_ok,
      expectSize_sizes]
    generalize f.stack.values.map size = sizes
    constructor
    · rintro ⟨ha, hb | ⟨hb, hd⟩⟩
      · obtain ⟨l, rfl⟩ := exists_cons_cons_of_getElem? ha hb
        constructor
      · obtain ⟨l, rfl⟩ := exists_cons_cons_cons_of_getElem? ha hb hd
        constructor
    · intro h
      cases h <;> simp
  | dup2X1 =>
    -- The top is read first, but its size only matters after the entry below it.
    have hiff : f.checkStackOp ins .dup2X1 = .ok () ↔
        (f.expectSize ins 1 1 = .ok () ∧ (do
          let t ← f.operand 0
          if t.size ≠ 2 then f.expectSize ins 2 1) = .ok ()) := by
      simp only [checkStackOp, bind_eq_ok, exists_unit]
      constructor
      · rintro ⟨t, ht, hb, hd⟩
        exact ⟨hb, t, ht, hd⟩
      · rintro ⟨hb, t, ht, hd⟩
        exact ⟨t, ht, hb, hd⟩
    rw [hiff, expectSize_sizes, operand_bind_eq_ok, expectSize_sizes]
    generalize f.stack.values.map size = sizes
    constructor
    · rintro ⟨hb, ha | ⟨ha, hd⟩⟩
      · obtain ⟨l, rfl⟩ := exists_cons_cons_of_getElem? ha hb
        constructor
      · obtain ⟨l, rfl⟩ := exists_cons_cons_cons_of_getElem? ha hb hd
        constructor
    · intro h
      cases h <;> simp
  | dup2X2 =>
    rw [checkStackOp, ite_reject_eq_ok, and_iff_left rfl, dup2X2Form?]
    generalize f.stack.values.map size = sizes
    constructor
    · intro h
      split at h
      · constructor
      · constructor
      · constructor
      · constructor
      · exact absurd rfl h
    · intro h
      cases h <;> simp

end Frame

/-! ### Instructions that need their surroundings -/

namespace MethodContext

variable {c : MethodContext} {f : Frame} {ins : Instruction} {got want : ValueType}

/-- A value may stand where a type is declared. -/
def Assigns (c : MethodContext) (got want : ValueType) : Prop :=
  match want with
  | .reference _ => got.isUninitialized = false ∧ c.hierarchy.assignable got want = .ok true
  | want => got = want

@[simp] theorem checkAssignable_eq_ok {place : Place} :
    c.checkAssignable ins place got want = .ok () ↔ c.Assigns got want := by
  cases want with
  | reference name =>
    simp only [checkAssignable, Assigns, ite_reject_bind_eq_ok, demand_eq_ok, pure_eq_ok, and_true,
      Bool.not_eq_true]
  | _ => simp only [checkAssignable, Assigns, ite_reject_eq_ok, not_not, pure_eq_ok, and_true]

theorem checkStackAccess_eq_ok : c.checkStackAccess ins f = .ok () ↔
    ∃ pops pushes, c.stackEffect ins = .ok (pops, pushes) ∧ pops ≤ slotsOf f.stack.values ∧
      (pushes : Int) - pops + slotsOf f.stack.values ≤ f.stack.max := by
  simp only [checkStackAccess, bind_eq_ok, known_eq_ok, Prod.exists, ite_error_eq_ok,
    ite_error_bind_eq_ok, pure_eq_ok, and_true, Stack.slots_eq, gt_iff_lt, Nat.not_lt, Int.not_lt]

/-- What a return demands of the frame. -/
def Returns (c : MethodContext) (f : Frame) (value : Option Kind) : Prop :=
  match value, c.type.result with
  | none, none => ¬(c.method.isConstructor && f.thisUninitialized) = true
  | some .reference, some result => result.isReference = true ∧
      ∃ got, f.stack.values[0]? = some got ∧ got.isReference = true ∧
        c.Assigns got (.ofFieldType result)
  | some (.numeric n), some result => ValueType.ofNumeric n = .ofFieldType result ∧
      f.stack.values[0]? = some (.ofNumeric n)
  | _, _ => False

theorem checkReturn_eq_ok {value : Option Kind} :
    c.checkReturn ins value f = .ok () ↔ c.Returns f value := by
  unfold checkReturn Returns
  cases hresult : c.type.result with
  | none =>
    rcases value with _ | _ | _
    · simp only [ite_reject_eq_ok, pure_eq_ok, and_true]
    · simp
    · simp
  | some result =>
    rcases value with _ | n | _
    · simp
    · simp only [ite_error_bind_eq_ok, not_not, Frame.expect_eq_ok]
    · simp only [ite_error_bind_eq_ok, bind_eq_ok, Frame.expectReference_eq_ok,
        checkAssignable_eq_ok, Bool.not_eq_true', Bool.not_eq_false, and_assoc]

theorem checkFieldStore_eq_ok {r : ResolvedField} {isStatic : Bool} :
    c.checkFieldStore ins r isStatic f = .ok () ↔
      (∃ got, f.stack.values[0]? = some got ∧ c.Assigns got r.type) ∧
      ¬(r.field.access.has .finalBit && r.decl.name ≠ c.owner.name) = true ∧
      ¬(isStatic && r.decl.isInterface && c.method.name ≠ initializerName) = true := by
  simp only [checkFieldStore, bind_eq_ok, Frame.operand_eq_ok, exists_unit,
    checkAssignable_eq_ok, ite_reject_bind_eq_ok, ite_reject_eq_ok, pure_eq_ok, and_true]
  constructor
  · rintro ⟨got, hgot, hassign, hfinal, hstatic⟩
    exact ⟨⟨got, hgot, hassign⟩, hfinal, hstatic⟩
  · rintro ⟨⟨got, hgot, hassign⟩, hfinal, hstatic⟩
    exact ⟨got, hgot, hassign, hfinal, hstatic⟩

/-- The objects that a field access accepts: null, an object of a suitable class, and for an
assignment in a constructor the receiver. -/
def Holds (c : MethodContext) (r : ResolvedField) (isPut : Bool) (got : ValueType) : Prop :=
  got = .null ∨ (got.isUninitializedThis && isPut && r.decl.name = c.owner.name) = true ∨
    (got.isClass = true ∧ c.hierarchy.assignable got (.reference r.ref.owner) = .ok true)

theorem checkFieldObject_eq_ok {r : ResolvedField} {isPut : Bool} :
    c.checkFieldObject ins r isPut f = .ok () ↔
      ∃ got, f.stack.values[if isPut then 1 else 0]? = some got ∧ c.Holds r isPut got ∧
        c.checkProtectedReceiver ins r.decl r.field.access r.field.name got = .ok () := by
  simp only [checkFieldObject, bind_eq_ok, Frame.operand_eq_ok]
  refine exists_congr fun got => and_congr_right fun _ => ?_
  unfold Holds
  by_cases hfree : got = .null ∨
      (got.isUninitializedThis && isPut && r.decl.name = c.owner.name) = true
  · rw [if_pos (by simpa using hfree), ← or_assoc]
    exact ⟨fun h => ⟨.inl hfree, h⟩, fun h => h.2⟩
  · rw [if_neg (by simpa using hfree), ← or_assoc, or_iff_right hfree]
    split
    · next hclass => simp only [demand_bind_eq_ok, hclass, true_and]
    · next hclass => simp [hclass]

theorem checkField_eq_ok {access : FieldAccess} : c.checkField ins access f = .ok () ↔
    ∃ r, c.resolveField ins = .ok r ∧
      r.field.access.has .staticBit = decide (access = .getStatic ∨ access = .putStatic) ∧
      ((access = .putStatic ∨ access = .put) →
        c.checkFieldStore ins r (decide (access = .getStatic ∨ access = .putStatic)) f = .ok ()) ∧
      (¬(access = .getStatic ∨ access = .putStatic) →
        c.checkFieldObject ins r (decide (access = .putStatic ∨ access = .put)) f = .ok ()) := by
  simp only [checkField, bind_eq_ok]
  refine exists_congr fun r => and_congr_right fun _ => ?_
  cases access <;>
    simp only [reduceCtorEq, or_false, or_true, or_self, decide_true, decide_false, true_implies,
      false_implies, not_true_eq_false, not_false_eq_true, ite_reject_bind_eq_ok, not_not,
      bind_eq_ok, exists_unit, if_true, if_false, Bool.not_true, Bool.not_false,
      Bool.false_eq_true, pure_eq_ok, and_true, true_and, eq_iff_iff, iff_true, iff_false,
      Bool.not_eq_true]

theorem checkArguments_eq_ok {args : List FieldType} : c.checkArguments ins args f = .ok () ↔
    ∀ i arg, args[i]? = some arg → ∃ got, f.stack.values[args.length - 1 - i]? = some got ∧
      c.Assigns got (.ofFieldType arg) := by
  simp only [checkArguments, List.forM_eq_forM, forM_eq_ok, bind_eq_ok, Frame.operand_eq_ok,
    checkAssignable_eq_ok, Prod.forall, List.mem_zipIdx_iff_getElem?]
  exact ⟨fun h i arg => h arg i, fun h arg i => h i arg⟩

theorem checkReceiver_eq_ok {kind : InvokeKind} {ref : MemberRef} {method : Method} {decl : Class} :
    c.checkReceiver ins kind ref method decl got = .ok () ↔
      got.isReference = true ∧ (got ≠ .null →
        (kind = .ofSpecial → c.hierarchy.assignable got (.reference c.owner.name) = .ok true) ∧
        c.hierarchy.assignable got (.reference ref.owner) = .ok true ∧
        c.checkProtectedReceiver ins decl method.access method.name got = .ok ()) := by
  have hfirst : (¬got.isUninitialized = true ∧ ¬(!got.isReference) = true) ↔
      got.isReference = true := by
    cases got <;> simp [isReference, isUninitialized]
  rw [checkReceiver, ite_reject_bind_eq_ok, ite_reject_bind_eq_ok, ← and_assoc, hfirst]
  refine and_congr_right fun _ => ?_
  split
  · next hnull => simp [hnull, pure, Except.pure]
  · next hnull =>
    simp only [ne_eq, hnull, not_false_eq_true, true_implies]
    split
    · next hspecial => simp only [demand_bind_eq_ok, hspecial, true_implies]
    · next hspecial => simp only [demand_bind_eq_ok, hspecial, false_implies, true_and]

theorem checkInvoke_eq_ok {kind : InvokeKind} : c.checkInvoke ins kind f = .ok () ↔
    ∃ r, c.resolveMethod ins kind = .ok r ∧ c.checkArguments ins r.type.args f = .ok () ∧
      ∀ target ∈ r.target, if kind = .ofStatic then target.1.isStatic = true
        else target.1.isStatic = false ∧
          ¬(kind = .ofInterface ∧ ins.count ≠ 1 + r.type.argumentSlots) ∧
          ∃ got, f.stack.values[r.type.args.length]? = some got ∧
            if r.ref.name = constructorName then
              c.checkConstructorCall ins r.ref.owner got = .ok ()
            else c.checkReceiver ins kind r.ref target.1 target.2 got = .ok () := by
  simp only [checkInvoke, bind_eq_ok, exists_unit]
  refine exists_congr fun r => and_congr_right fun _ => and_congr_right fun _ => ?_
  cases htarget : r.target with
  | none => simp [pure, Except.pure]
  | some target =>
    obtain ⟨method, decl⟩ := target
    simp only [Option.mem_def, Option.some.injEq, forall_eq']
    split
    · simp only [ite_reject_eq_ok, Bool.not_eq_true', Bool.not_eq_false, pure_eq_ok, and_true]
    · simp only [ite_reject_bind_eq_ok, bind_eq_ok, Frame.operand_eq_ok, Bool.not_eq_true]
      refine and_congr_right fun _ => and_congr_right fun _ => exists_congr fun got =>
        and_congr_right fun _ => ?_
      split <;> rfl

theorem checkRaise_eq_ok : c.checkRaise ins f = .ok () ↔
    ∃ got, f.stack.values[0]? = some got ∧ got.isReference = true ∧ (got ≠ .null →
      got.isClass = true ∧ c.hierarchy.knownSubclass got.name throwableClass = .ok true) := by
  simp only [checkRaise, bind_eq_ok, Frame.expectReference_eq_ok, and_assoc]
  refine exists_congr fun got => and_congr_right fun _ => and_congr_right fun _ => ?_
  split
  · next hnull => simp [hnull, pure, Except.pure]
  · next hnull =>
    rw [ite_reject_bind_eq_ok, demand_eq_ok, and_iff_left (show pure () = Except.ok () from rfl)]
    simp [hnull]

end MethodContext

end Bytecode
