import Bytecode.Proofs.Capacity

/-!
Instructions under other limits.

An instruction asks for the limits of its frame only to see whether there is room, and pushing,
which is refused beyond the limit, comes after popping. So what it does to a frame it does in the
same way to the frame under other limits, as long as these leave room for the outcome.

Main statement: `run_carries`, instructions carry changes of limits over.
-/
namespace Bytecode

namespace Frame

/-- A change of the limits of frames: the values stay, and what is done to them can be done before
the change or after it. -/
structure LimitChange where
  apply : Frame → Frame
  values : ∀ f, (apply f).stack.values = f.stack.values
  withValues : ∀ f values, apply (f.withValues values) = (apply f).withValues values
  getLocal : ∀ {f : Frame} {i : Nat} {t : ValueType}, f.locals[i]? = some t →
    (apply f).locals[i]? = some t
  store : ∀ {f : Frame} {i : Nat} {t : ValueType}, i < f.locals.size →
    (t.size = 2 → i + 1 < f.locals.size) →
    apply { f with locals := storedLocals f.locals i t } =
      { apply f with locals := storedLocals (apply f).locals i t }
  receiver : ∀ (f : Frame) (b : Bool),
    apply { f with thisUninitialized := b } = { apply f with thisUninitialized := b }

/-- If there is room for the outcome of `r` once its limits are changed, then `r'` has the outcome
with changed limits. -/
def Carries (φ : LimitChange) (r r' : Except InternalError Frame) : Prop :=
  ∀ out, r = .ok out → (slotsOf out.stack.values : Int) ≤ (φ.apply out).stack.max →
    r' = .ok (φ.apply out)

namespace Carries

variable {φ : LimitChange}

theorem error {e : InternalError} {r : Except InternalError Frame} : Carries φ (.error e) r := by
  intro out h
  cases h

theorem idle (f : Frame) : Carries φ (.ok f) (.ok (φ.apply f)) := by
  intro out h _
  cases h
  rfl

theorem push (f : Frame) (t : ValueType) : Carries φ (f.push t) ((φ.apply f).push t) := by
  intro out h hroom
  obtain ⟨ht, -, rfl⟩ := push_eq_ok.1 h
  rw [φ.withValues] at hroom ⊢
  rw [push_eq_ok, φ.values]
  exact ⟨ht, by simpa using hroom, rfl⟩

theorem pushAll (f : Frame) {types : List ValueType} (hne : types ≠ []) :
    Carries φ (f.pushAll types) ((φ.apply f).pushAll types) := by
  intro out h hroom
  obtain ⟨hall, -, rfl⟩ := (pushAll_eq_ok hne).1 h
  rw [φ.withValues] at hroom ⊢
  rw [pushAll_eq_ok hne, φ.values]
  exact ⟨hall, by simpa using hroom, rfl⟩

theorem popN (f : Frame) (n : Nat) : Carries φ (f.popN n) ((φ.apply f).popN n) := by
  intro out h _
  obtain ⟨hn, rfl⟩ := popN_eq_ok.1 h
  rw [φ.withValues, popN_eq_ok, φ.values]
  exact ⟨hn, rfl⟩

theorem replace (f : Frame) (n : Nat) (t : ValueType) :
    Carries φ (f.replace n t) ((φ.apply f).replace n t) := by
  intro out h hroom
  obtain ⟨hn, ht, -, rfl⟩ := replace_eq_ok.1 h
  rw [φ.withValues] at hroom ⊢
  rw [replace_eq_ok, φ.values]
  exact ⟨hn, ht, by simpa using hroom, rfl⟩

theorem store (f : Frame) (i : Nat) : Carries φ (f.store i) ((φ.apply f).store i) := by
  intro out h _
  obtain ⟨t, values, hv, hi, hhalf, rfl⟩ := store_eq_ok.1 h
  have hlt : ∀ {j : Nat}, j < f.locals.size → j < (φ.apply f).locals.size := by
    intro j hj
    have hget := φ.getLocal (Array.getElem?_eq_getElem hj)
    exact (Array.getElem?_eq_some_iff.1 hget).1
  refine store_eq_ok.2 ⟨t, values, (φ.values f).trans hv, hlt hi, fun ht => hlt (hhalf ht), ?_⟩
  have hstore := φ.store (f := f.withValues values) hi hhalf
  rw [φ.withValues] at hstore
  exact hstore

theorem bind {α : Type} {x : Except InternalError α} {k k' : α → Except InternalError Frame}
    (h : ∀ a, Carries φ (k a) (k' a)) : Carries φ (x >>= k) (x >>= k') := by
  intro out hout hroom
  obtain ⟨a, rfl, ha⟩ := bind_eq_ok.1 hout
  exact h a out ha hroom

theorem bindPop {f : Frame} {k k' : ValueType × Frame → Except InternalError Frame}
    (h : ∀ t g, Carries φ (k (t, g)) (k' (t, φ.apply g))) :
    Carries φ (f.pop >>= k) ((φ.apply f).pop >>= k') := by
  intro out hout hroom
  obtain ⟨⟨t, g⟩, hpop, hout⟩ := bind_eq_ok.1 hout
  obtain ⟨values, hv, rfl⟩ := pop_eq_ok.1 hpop
  have hpop' : (φ.apply f).pop = .ok (t, φ.apply (f.withValues values)) := by
    rw [φ.withValues]
    exact pop_eq_ok.2 ⟨values, (φ.values f).trans hv, rfl⟩
  exact bind_eq_ok.2 ⟨_, hpop', h t _ out hout hroom⟩

theorem bindPopN {f : Frame} {n : Nat} {k k' : Frame → Except InternalError Frame}
    (h : ∀ g, Carries φ (k g) (k' (φ.apply g))) :
    Carries φ (f.popN n >>= k) ((φ.apply f).popN n >>= k') := by
  intro out hout hroom
  obtain ⟨g, hpop, hout⟩ := bind_eq_ok.1 hout
  obtain ⟨hn, rfl⟩ := popN_eq_ok.1 hpop
  have hpop' : (φ.apply f).popN n = .ok (φ.apply (f.withValues (f.stack.values.drop n))) := by
    rw [φ.withValues, popN_eq_ok, φ.values]
    exact ⟨hn, rfl⟩
  exact bind_eq_ok.2 ⟨_, hpop', h _ out hout hroom⟩

theorem bindPeek {f : Frame} {n : Nat} {k k' : ValueType → Except InternalError Frame}
    (h : ∀ t, f.stack.values[n]? = some t → Carries φ (k t) (k' t)) :
    Carries φ (f.stack.peek n >>= k) ((φ.apply f).stack.peek n >>= k') := by
  intro out hout hroom
  obtain ⟨t, hpeek, hout⟩ := bind_eq_ok.1 hout
  have ht := Stack.peek_eq_ok.1 hpeek
  refine bind_eq_ok.2 ⟨t, ?_, h t ht out hout hroom⟩
  rw [Stack.peek_eq_ok, φ.values, ht]

theorem bindLocal {f : Frame} {i : Nat} {k k' : ValueType → Except InternalError Frame}
    (h : ∀ t, Carries φ (k t) (k' t)) :
    Carries φ (f.getLocal i >>= k) ((φ.apply f).getLocal i >>= k') := by
  intro out hout hroom
  obtain ⟨t, hget, hout⟩ := bind_eq_ok.1 hout
  have hget' := φ.getLocal (getLocal_eq_ok.1 hget)
  exact bind_eq_ok.2 ⟨t, getLocal_eq_ok.2 hget', h t out hout hroom⟩

theorem ite {p : Prop} [Decidable p] {x x' y y' : Except InternalError Frame}
    (hx : Carries φ x x') (hy : Carries φ y y') :
    Carries φ (if p then x else y) (if p then x' else y') := by
  split
  · exact hx
  · exact hy

theorem loadElement (f : Frame) (ins : Instruction) (access : ElementAccess) :
    Carries φ (f.loadElement ins access) ((φ.apply f).loadElement ins access) := by
  refine bindPop fun _ g => bindPop fun array g => ite (push g _) (ite (push g _) ?_)
  cases array.component? with
  | none => exact error
  | some component => exact push g _

theorem runStackOp (f : Frame) (ins : Instruction) (op : StackOp) :
    Carries φ (f.runStackOp ins op) ((φ.apply f).runStackOp ins op) := by
  cases op with
  | pop => exact popN f 1
  | pop2 => exact bindPop fun a g => ite (popN g 1) (idle g)
  | dup => exact bindPeek fun a _ => push f a
  | dupX1 | swap => exact bindPop fun a g => bindPop fun b g => pushAll g (by simp)
  | dupX2 | dup2X1 =>
    exact bindPop fun a g => bindPop fun b g =>
      ite (pushAll g (by simp)) (bindPop fun d g => pushAll g (by simp))
  | dup2 =>
    exact bindPop fun a g => ite (pushAll g (by simp)) (bindPop fun b g => pushAll g (by simp))
  | dup2X2 =>
    have hform : (φ.apply f).dup2X2Form? = f.dup2X2Form? := by
      unfold dup2X2Form?
      rw [φ.values]
    unfold Frame.runStackOp
    dsimp only
    rw [hform]
    cases f.dup2X2Form? with
    | none => exact error
    | some form =>
      refine bindPop fun a g => bindPop fun b g => ?_
      cases form with
      | wides => exact pushAll g (by simp)
      | wideOverSingles | singlesOverWide => exact bindPop fun d g => pushAll g (by simp)
      | singles => exact bindPop fun d g => bindPop fun e g => pushAll g (by simp)

end Carries

end Frame

namespace MethodContext

variable {c : MethodContext} {ins : Instruction} {f : Frame} {φ : Frame.LimitChange}

open Bytecode.Frame (Carries)

theorem runField_carries (access : FieldAccess) :
    Carries φ (c.runField ins access f) (c.runField ins access (φ.apply f)) := by
  refine .bind fun operand => ?_
  cases access with
  | getStatic => exact .push f _
  | putStatic | put => exact .popN f _
  | get => exact .replace f 1 _

/-- A call up to its result: a constructor initializes its receiver in the whole frame, and then the
arguments are popped, with the receiver. -/
def calling (f : Frame) (constructor : Prop) [Decidable constructor] (args receiver : Nat)
    (k : Frame → Except InternalError Frame) : Except InternalError Frame := do
  let f ← if constructor then do
      let marker ← f.stack.peek args
      let f := f.initializeObject marker
      pure (if marker.isUninitializedThis then { f with thisUninitialized := false } else f)
    else pure f
  let f ← f.popN (args + receiver)
  k f

section Initializing

-- Values that the changed frame has and the frame has not could be taken for the marker.
variable (hinit : ∀ marker ∈ f.stack.values,
  φ.apply (f.initializeObject marker) = (φ.apply f).initializeObject marker)

include hinit

theorem calling_carries {constructor : Prop} [Decidable constructor] {args receiver : Nat}
    {k : Frame → Except InternalError Frame}
    (hk : ∀ g : Frame, Carries φ (k g) (k (φ.apply g))) :
    Carries φ (calling f constructor args receiver k)
      (calling (φ.apply f) constructor args receiver k) := by
  unfold calling
  by_cases hconstructor : constructor
  · simp only [if_pos hconstructor]
    refine .bindPeek fun marker hmarker => ?_
    rw [← hinit marker (List.mem_of_getElem? hmarker)]
    by_cases hthis : marker.isUninitializedThis = true
    · simp only [if_pos hthis, ← φ.receiver]
      exact Carries.bindPopN (f := { f.initializeObject marker with thisUninitialized := false }) hk
    · simp only [if_neg hthis]
      exact Carries.bindPopN (f := f.initializeObject marker) hk
  · simp only [if_neg hconstructor]
    exact Carries.bindPopN hk

theorem runInvoke_carries (kind : InvokeKind) :
    Carries φ (c.runInvoke ins kind f) (c.runInvoke ins kind (φ.apply f)) := by
  refine .bind fun operand => ?_
  obtain ⟨ref, type⟩ := operand
  refine calling_carries hinit fun g => ?_
  cases type.result with
  | none => exact .idle g
  | some result => exact .push g _

/-- What an instruction makes of a frame it also makes of it under other limits, if there is room
for it. -/
theorem run_carries : Carries φ (c.run ins f) (c.run ins (φ.apply f)) := by
  unfold run
  cases ins.action with
  | nop | goto | ret | iinc => exact .idle f
  | constNull | const | jsr => exact .push f _
  | loadConst | allocate => exact .bind fun t => .push f _
  | load => exact .bindLocal fun t => .push f t
  | store => exact .store f _
  | arrayLoad => exact .loadElement f ins _
  | arrayStore | branch | switch | monitor => exact .popN f _
  | stack op => exact .runStackOp f ins op
  | arith | newArray | arrayLength | instanceOf => exact .replace f _ _
  | leave value =>
    cases value with
    | none => exact .idle f
    | some kind => exact .popN f 1
  | field access => exact runField_carries access
  | invoke kind => exact runInvoke_carries hinit kind
  | newRefArray => exact .bindPopN fun g => .bind fun name => .bind fun type => .push g _
  | newMultiArray | checkCast => exact .bind fun name => .bind fun type => .replace f _ _
  | raise =>
    refine .bindPop fun thrown g => ?_
    show Carries φ ((g.withValues []).push _) (((φ.apply g).withValues []).push _)
    rw [← φ.withValues]
    exact .push (g.withValues []) _
  | wide => exact .error

end Initializing

end MethodContext

end Bytecode
