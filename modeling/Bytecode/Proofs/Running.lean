import Mathlib.Algebra.GroupWithZero.Nat
import Bytecode.Transfer
import Bytecode.Proofs.Failing

/-!
What instructions do to frames.

* `Stack.push_eq_ok` and its like: what each operation on a stack or frame needs, and what it gives;
* `Effect`: what an instruction that was run has done to the values of the frame.
-/
namespace Bytecode

open Bytecode.Frame List ValueType

/-- The slots that values take together. -/
def slotsOf (values : List ValueType) : Nat :=
  (values.map ValueType.size).sum

@[simp] theorem slotsOf_nil : slotsOf [] = 0 := rfl

@[simp] theorem slotsOf_cons (t : ValueType) (values : List ValueType) :
    slotsOf (t :: values) = t.size + slotsOf values := by
  simp [slotsOf]

@[simp] theorem slotsOf_append (l₁ l₂ : List ValueType) :
    slotsOf (l₁ ++ l₂) = slotsOf l₁ + slotsOf l₂ := by
  simp [slotsOf]

@[simp] theorem slotsOf_reverse (l : List ValueType) : slotsOf l.reverse = slotsOf l := by
  induction l with
  | nil => rfl
  | cons t l ih => simp [ih, Nat.add_comm]

theorem slotsOf_drop (l : List ValueType) (n : Nat) :
    slotsOf (l.take n) + slotsOf (l.drop n) = slotsOf l := by
  rw [← slotsOf_append, take_append_drop]

/-! ### Stacks -/

namespace Stack

variable {s s' : Stack} {t : ValueType}

theorem slots_eq (s : Stack) : s.slots = slotsOf s.values := by
  unfold slots slotsOf
  induction s.values with
  | nil => rfl
  | cons t values ih => simp [ih]

theorem push_eq_ok : s.push t = .ok s' ↔
    t ≠ .unknown ∧ ((t.size + slotsOf s.values : Nat) : Int) ≤ s.max ∧
      s' = { s with values := t :: s.values } := by
  unfold push
  rw [slots_eq, Nat.add_comm (slotsOf _)]
  split
  · next ht => simp [ht]
  · next ht =>
    split
    · next hmax =>
      constructor
      · rintro ⟨⟩
      · rintro ⟨-, hle, -⟩
        omega
    · next hmax =>
      constructor
      · rintro ⟨⟩
        exact ⟨ht, by omega, rfl⟩
      · rintro ⟨-, -, rfl⟩
        rfl

theorem pop_eq_ok : s.pop = .ok (t, s') ↔
    ∃ values, s.values = t :: values ∧ s' = { s with values } := by
  unfold pop
  split
  · next hv => simp [hv]
  · next u values hv =>
    constructor
    · rintro ⟨⟩
      exact ⟨values, hv, rfl⟩
    · rintro ⟨values', hv', rfl⟩
      cases hv.symm.trans hv'
      rfl

theorem popN_eq_ok {n : Nat} : s.popN n = .ok s' ↔ n ≤ s.values.length ∧ s' = s.drop n := by
  unfold popN size
  split
  · next hn => simp [hn, eq_comm]
  · next hn => simp [hn]

theorem peek_eq_ok {n : Nat} : s.peek n = .ok t ↔ s.values[n]? = some t := by
  show s.peek (Int.ofNat n) = .ok t ↔ _
  unfold peek
  simp only
  split
  · next u hu => simp [hu]
  · next hu => simp [hu]

theorem pushAll_cons (s : Stack) (t : ValueType) (types : List ValueType) :
    s.pushAll (t :: types) = s.push t >>= fun u => u.pushAll types := by
  simp [pushAll]

theorem pushAll_eq_ok {types : List ValueType} (hne : types ≠ []) : s.pushAll types = .ok s' ↔
    (∀ t ∈ types, t ≠ .unknown) ∧ ((slotsOf types + slotsOf s.values : Nat) : Int) ≤ s.max ∧
      s' = { s with values := types.reverse ++ s.values } := by
  induction types generalizing s with
  | nil => exact absurd rfl hne
  | cons t types ih =>
    rw [pushAll_cons, bind_eq_ok]
    simp only [push_eq_ok]
    by_cases hnil : types = []
    · subst hnil
      constructor
      · rintro ⟨u, ⟨ht, hroom, rfl⟩, hrest⟩
        cases hrest
        exact ⟨by simpa using ht, by simpa using hroom, rfl⟩
      · rintro ⟨hall, hroom, rfl⟩
        exact ⟨_, ⟨hall t (by simp), by simpa using hroom, rfl⟩, rfl⟩
    · constructor
      · rintro ⟨u, ⟨ht, hroom, rfl⟩, hrest⟩
        obtain ⟨hall, hroom', rfl⟩ := (ih hnil).1 hrest
        refine ⟨by simpa [ht] using hall, ?_, by simp⟩
        simp only [slotsOf_cons] at hroom' ⊢
        omega
      · rintro ⟨hall, hroom, rfl⟩
        simp only [slotsOf_cons] at hroom
        refine ⟨_, ⟨hall t mem_cons_self, by omega, rfl⟩, (ih hnil).2 ⟨?_, ?_, by simp⟩⟩
        · exact fun u hu => hall u (mem_cons_of_mem t hu)
        · simp only [slotsOf_cons]
          omega

end Stack

/-! ### Frames -/

namespace Frame

variable {f f' : Frame} {t : ValueType}

/-- The frame with other values on its stack. -/
def withValues (f : Frame) (values : List ValueType) : Frame :=
  { f with stack := { f.stack with values } }

@[simp] theorem withValues_values (f : Frame) (values : List ValueType) :
    (f.withValues values).stack.values = values := rfl

@[simp] theorem withValues_max (f : Frame) (values : List ValueType) :
    (f.withValues values).stack.max = f.stack.max := rfl

@[simp] theorem withValues_locals (f : Frame) (values : List ValueType) :
    (f.withValues values).locals = f.locals := rfl

@[simp] theorem withValues_thisUninitialized (f : Frame) (values : List ValueType) :
    (f.withValues values).thisUninitialized = f.thisUninitialized := rfl

@[simp] theorem withValues_withValues (f : Frame) (values values' : List ValueType) :
    (f.withValues values).withValues values' = f.withValues values' := rfl

theorem push_eq_ok : f.push t = .ok f' ↔
    t ≠ .unknown ∧ ((t.size + slotsOf f.stack.values : Nat) : Int) ≤ f.stack.max ∧
      f' = f.withValues (t :: f.stack.values) := by
  unfold push
  simp only [bind_eq_ok, pure_eq_ok, Stack.push_eq_ok]
  constructor
  · rintro ⟨s, ⟨ht, hroom, rfl⟩, rfl⟩
    exact ⟨ht, hroom, rfl⟩
  · rintro ⟨ht, hroom, rfl⟩
    exact ⟨_, ⟨ht, hroom, rfl⟩, rfl⟩

theorem pushAll_eq_ok {types : List ValueType} (hne : types ≠ []) : f.pushAll types = .ok f' ↔
    (∀ t ∈ types, t ≠ .unknown) ∧
      ((slotsOf types + slotsOf f.stack.values : Nat) : Int) ≤ f.stack.max ∧
      f' = f.withValues (types.reverse ++ f.stack.values) := by
  unfold pushAll
  simp only [bind_eq_ok, pure_eq_ok, Stack.pushAll_eq_ok hne]
  constructor
  · rintro ⟨s, ⟨hall, hroom, rfl⟩, rfl⟩
    exact ⟨hall, hroom, rfl⟩
  · rintro ⟨hall, hroom, rfl⟩
    exact ⟨_, ⟨hall, hroom, rfl⟩, rfl⟩

theorem pop_eq_ok : f.pop = .ok (t, f') ↔
    ∃ values, f.stack.values = t :: values ∧ f' = f.withValues values := by
  unfold pop
  simp only [bind_eq_ok, pure_eq_ok, Prod.exists, Stack.pop_eq_ok]
  constructor
  · rintro ⟨u, s, ⟨values, hv, rfl⟩, h⟩
    cases h
    exact ⟨values, hv, rfl⟩
  · rintro ⟨values, hv, rfl⟩
    exact ⟨t, _, ⟨values, hv, rfl⟩, rfl⟩

theorem pop_of_values {l : List ValueType} (hv : f.stack.values = t :: l) :
    f.pop = .ok (t, f.withValues l) :=
  pop_eq_ok.2 ⟨l, hv, rfl⟩

theorem pop_withValues (f : Frame) (t : ValueType) (l : List ValueType) :
    (f.withValues (t :: l)).pop = .ok (t, f.withValues l) :=
  rfl

variable {n i j : Nat} {v : ValueType} {op : StackOp}

theorem popN_eq_ok : f.popN n = .ok f' ↔
    n ≤ f.stack.values.length ∧ f' = f.withValues (f.stack.values.drop n) := by
  unfold popN
  simp only [bind_eq_ok, pure_eq_ok, Stack.popN_eq_ok]
  constructor
  · rintro ⟨s, ⟨hn, rfl⟩, rfl⟩
    exact ⟨hn, rfl⟩
  · rintro ⟨hn, rfl⟩
    exact ⟨_, ⟨hn, rfl⟩, rfl⟩

theorem replace_eq_ok : f.replace n t = .ok f' ↔
    n ≤ f.stack.values.length ∧ t ≠ .unknown ∧
      ((t.size + slotsOf (f.stack.values.drop n) : Nat) : Int) ≤ f.stack.max ∧
      f' = f.withValues (t :: f.stack.values.drop n) := by
  unfold replace
  simp only [bind_eq_ok, popN_eq_ok, push_eq_ok]
  constructor
  · rintro ⟨u, ⟨hn, rfl⟩, ht, hroom, rfl⟩
    exact ⟨hn, ht, hroom, rfl⟩
  · rintro ⟨hn, ht, hroom, rfl⟩
    exact ⟨_, ⟨hn, rfl⟩, ht, hroom, rfl⟩

theorem getLocal_eq_ok : f.getLocal n = .ok t ↔ f.locals[n]? = some t := by
  show f.getLocal (Int.ofNat n) = .ok t ↔ _
  unfold getLocal
  simp only
  split
  · next u hu => simp [hu]
  · next hu => simp [hu]

theorem setLocal_eq_ok : f.setLocal n t = .ok f' ↔
    n < f.locals.size ∧ f' = { f with locals := f.locals.setIfInBounds n t } := by
  show f.setLocal (Int.ofNat n) t = .ok f' ↔ _
  unfold setLocal
  simp only
  split
  · next hn => simp [hn, eq_comm]
  · next hn => simp [hn]

/-- Local variables after a value was stored: one of two slots makes the next variable unusable. -/
def storedLocals (locals : Array ValueType) (i : Nat) (t : ValueType) : Array ValueType :=
  if t.size = 2 then (locals.setIfInBounds i t).setIfInBounds (i + 1) .unknown
  else locals.setIfInBounds i t

theorem getElem?_storedLocals {locals : Array ValueType}
    (h : (storedLocals locals i t)[j]? = some v) : locals[j]? = some v ∨ v = t ∨ v = .unknown := by
  have hset : ∀ {l : Array ValueType} {k : Nat} {u : ValueType},
      (l.setIfInBounds k u)[j]? = some v → l[j]? = some v ∨ v = u := by
    intro l k u hl
    rw [Array.getElem?_setIfInBounds] at hl
    split at hl
    · split at hl
      · cases hl
        exact .inr rfl
      · cases hl
    · exact .inl hl
  unfold storedLocals at h
  split at h
  · rcases hset h with h | rfl
    · exact (hset h).imp_right .inl
    · exact .inr (.inr rfl)
  · exact (hset h).imp_right .inl

theorem getElem?_storedLocals_of_ne {locals : Array ValueType} (hi : j ≠ i)
    (hhalf : t.size = 2 → j ≠ i + 1) : (storedLocals locals i t)[j]? = locals[j]? := by
  unfold storedLocals
  split
  · next ht =>
    rw [Array.getElem?_setIfInBounds_ne (hhalf ht).symm, Array.getElem?_setIfInBounds_ne hi.symm]
  · rw [Array.getElem?_setIfInBounds_ne hi.symm]

theorem getElem?_storedLocals_self {locals : Array ValueType} (hi : i < locals.size) :
    (storedLocals locals i t)[i]? = some t := by
  unfold storedLocals
  split
  · rw [Array.getElem?_setIfInBounds_ne (by omega), Array.getElem?_setIfInBounds_self_of_lt hi]
  · rw [Array.getElem?_setIfInBounds_self_of_lt hi]

theorem mem_storedLocals {locals : Array ValueType} (h : v ∈ storedLocals locals i t) :
    v ∈ locals ∨ v = t ∨ v = .unknown := by
  obtain ⟨j, hj⟩ := Array.getElem?_of_mem h
  exact (getElem?_storedLocals hj).imp_left Array.mem_of_getElem?

theorem place_eq_ok : f.place i t = .ok f' ↔ i < f.locals.size ∧
    (t.size = 2 → i + 1 < f.locals.size) ∧
      f' = { f with locals := storedLocals f.locals i t } := by
  unfold place
  simp only [bind_eq_ok, setLocal_eq_ok]
  constructor
  · rintro ⟨k, ⟨hi, rfl⟩, hk⟩
    refine ⟨hi, ?_⟩
    split at hk
    · next ht =>
      obtain ⟨hi', rfl⟩ := setLocal_eq_ok.1 hk
      exact ⟨fun _ => by simpa using hi', by simp [storedLocals, ht]⟩
    · next ht =>
      cases hk
      exact ⟨fun h => absurd h ht, by simp [storedLocals, ht]⟩
  · rintro ⟨hi, hi', rfl⟩
    refine ⟨_, ⟨hi, rfl⟩, ?_⟩
    split
    · next ht => exact setLocal_eq_ok.2 ⟨by simpa using hi' ht, by simp [storedLocals, ht]⟩
    · next ht => simp [storedLocals, ht, pure, Except.pure]

theorem store_eq_ok : f.store i = .ok f' ↔
    ∃ t values, f.stack.values = t :: values ∧ i < f.locals.size ∧
      (t.size = 2 → i + 1 < f.locals.size) ∧
      f' = { f.withValues values with locals := storedLocals f.locals i t } := by
  unfold store
  simp only [bind_eq_ok, Prod.exists, pop_eq_ok, place_eq_ok]
  constructor
  · rintro ⟨t, g, ⟨values, hv, rfl⟩, hplaced⟩
    exact ⟨t, values, hv, hplaced⟩
  · rintro ⟨t, values, hv, hplaced⟩
    exact ⟨t, _, ⟨values, hv, rfl⟩, hplaced⟩

/-- How a move on the stack changes the entries, which stand top first. -/
inductive Shuffled : StackOp → List ValueType → List ValueType → Prop
  | pop (a : ValueType) (l : List ValueType) : Shuffled .pop (a :: l) l
  | pop2 {a : ValueType} (b : ValueType) (l : List ValueType) (ha : a.size = 1) :
      Shuffled .pop2 (a :: b :: l) l
  | pop2Wide {a : ValueType} (l : List ValueType) (ha : a.size ≠ 1) : Shuffled .pop2 (a :: l) l
  | dup (a : ValueType) (l : List ValueType) : Shuffled .dup (a :: l) (a :: a :: l)
  | dupX1 (a b : ValueType) (l : List ValueType) : Shuffled .dupX1 (a :: b :: l) (a :: b :: a :: l)
  | dupX2 (a : ValueType) {b : ValueType} (d : ValueType) (l : List ValueType) (hb : b.size ≠ 2) :
      Shuffled .dupX2 (a :: b :: d :: l) (a :: b :: d :: a :: l)
  | dupX2Wide (a : ValueType) {b : ValueType} (l : List ValueType) (hb : b.size = 2) :
      Shuffled .dupX2 (a :: b :: l) (a :: b :: a :: l)
  | dup2 {a : ValueType} (b : ValueType) (l : List ValueType) (ha : a.size ≠ 2) :
      Shuffled .dup2 (a :: b :: l) (a :: b :: a :: b :: l)
  | dup2Wide {a : ValueType} (l : List ValueType) (ha : a.size = 2) :
      Shuffled .dup2 (a :: l) (a :: a :: l)
  | dup2X1 {a : ValueType} (b d : ValueType) (l : List ValueType) (ha : a.size ≠ 2) :
      Shuffled .dup2X1 (a :: b :: d :: l) (a :: b :: d :: a :: b :: l)
  | dup2X1Wide {a : ValueType} (b : ValueType) (l : List ValueType) (ha : a.size = 2) :
      Shuffled .dup2X1 (a :: b :: l) (a :: b :: a :: l)
  | dup2X2 {a b d e : ValueType} (l : List ValueType) (ha : a.size = 1) (hb : b.size = 1)
      (hd : d.size = 1) (he : e.size = 1) :
      Shuffled .dup2X2 (a :: b :: d :: e :: l) (a :: b :: d :: e :: a :: b :: l)
  | dup2X2Over {a b d : ValueType} (l : List ValueType) (ha : a.size = 2) (hb : b.size = 1)
      (hd : d.size = 1) : Shuffled .dup2X2 (a :: b :: d :: l) (a :: b :: d :: a :: l)
  | dup2X2Under {a b d : ValueType} (l : List ValueType) (ha : a.size = 1) (hb : b.size = 1)
      (hd : d.size = 2) : Shuffled .dup2X2 (a :: b :: d :: l) (a :: b :: d :: a :: b :: l)
  | dup2X2Wides {a b : ValueType} (l : List ValueType) (ha : a.size = 2) (hb : b.size = 2) :
      Shuffled .dup2X2 (a :: b :: l) (a :: b :: a :: l)
  | swap (a b : ValueType) (l : List ValueType) : Shuffled .swap (a :: b :: l) (b :: a :: l)

theorem Shuffled.mem {l l' : List ValueType} (h : Shuffled op l l') (hv : v ∈ l') : v ∈ l := by
  cases h <;> simp_all <;> grind

theorem runStackOp_ok {ins : Instruction} (h : f.runStackOp ins op = .ok f') :
    ∃ values, Shuffled op f.stack.values values ∧ f' = f.withValues values := by
  cases op with simp only [runStackOp, bind_eq_ok, Prod.exists, pop_eq_ok] at h
  | pop =>
    obtain ⟨hn, rfl⟩ := popN_eq_ok.1 h
    obtain ⟨a, l, hl⟩ := exists_cons_of_length_pos hn
    exact ⟨l, hl ▸ .pop a l, by simp [hl]⟩
  | pop2 =>
    obtain ⟨a, _, ⟨l, hl, rfl⟩, h⟩ := h
    split at h
    · next ha =>
      obtain ⟨hn, rfl⟩ := popN_eq_ok.1 h
      obtain ⟨b, l, rfl⟩ := exists_cons_of_length_pos hn
      exact ⟨_, hl ▸ .pop2 b l ha, rfl⟩
    · next ha =>
      cases h
      exact ⟨_, hl ▸ .pop2Wide l ha, rfl⟩
  | dup =>
    obtain ⟨a, ha, h⟩ := h
    obtain ⟨-, -, rfl⟩ := push_eq_ok.1 h
    have ha' : f.stack.values[0]? = some a := Stack.peek_eq_ok.1 ha
    obtain ⟨l, hl⟩ : ∃ l, f.stack.values = a :: l := by
      cases hv : f.stack.values with
      | nil => simp [hv] at ha'
      | cons b l => exact ⟨l, by simpa [hv] using ha'⟩
    exact ⟨a :: a :: l, hl ▸ .dup a l, by simp [hl]⟩
  | dupX1 =>
    obtain ⟨a, _, ⟨_, hl, rfl⟩, b, _, ⟨l, rfl, rfl⟩, h⟩ := h
    obtain ⟨-, -, rfl⟩ := (pushAll_eq_ok (by simp)).1 h
    exact ⟨_, hl ▸ .dupX1 a b l, rfl⟩
  | dupX2 =>
    obtain ⟨a, _, ⟨_, hl, rfl⟩, b, _, ⟨l, rfl, rfl⟩, h⟩ := h
    split at h
    · next hb =>
      obtain ⟨-, -, rfl⟩ := (pushAll_eq_ok (by simp)).1 h
      exact ⟨_, hl ▸ .dupX2Wide a l hb, rfl⟩
    · next hb =>
      simp only [bind_eq_ok, Prod.exists, pop_eq_ok] at h
      obtain ⟨d, _, ⟨l, rfl, rfl⟩, h⟩ := h
      obtain ⟨-, -, rfl⟩ := (pushAll_eq_ok (by simp)).1 h
      exact ⟨_, hl ▸ .dupX2 a d l hb, rfl⟩
  | dup2 =>
    obtain ⟨a, _, ⟨l, hl, rfl⟩, h⟩ := h
    split at h
    · next ha =>
      obtain ⟨-, -, rfl⟩ := (pushAll_eq_ok (by simp)).1 h
      exact ⟨_, hl ▸ .dup2Wide l ha, rfl⟩
    · next ha =>
      simp only [bind_eq_ok, Prod.exists, pop_eq_ok] at h
      obtain ⟨b, _, ⟨l, rfl, rfl⟩, h⟩ := h
      obtain ⟨-, -, rfl⟩ := (pushAll_eq_ok (by simp)).1 h
      exact ⟨_, hl ▸ .dup2 b l ha, rfl⟩
  | dup2X1 =>
    obtain ⟨a, _, ⟨_, hl, rfl⟩, b, _, ⟨l, rfl, rfl⟩, h⟩ := h
    split at h
    · next ha =>
      obtain ⟨-, -, rfl⟩ := (pushAll_eq_ok (by simp)).1 h
      exact ⟨_, hl ▸ .dup2X1Wide b l ha, rfl⟩
    · next ha =>
      simp only [bind_eq_ok, Prod.exists, pop_eq_ok] at h
      obtain ⟨d, _, ⟨l, rfl, rfl⟩, h⟩ := h
      obtain ⟨-, -, rfl⟩ := (pushAll_eq_ok (by simp)).1 h
      exact ⟨_, hl ▸ .dup2X1 b d l ha, rfl⟩
  | dup2X2 =>
    split at h
    · cases h
    · next form hform =>
      -- The sizes of the entries choose the form, so they also say how many there are to pop.
      unfold dup2X2Form? at hform
      split at hform
      · next hsizes =>
        cases hform
        simp only [map_eq_cons_iff] at hsizes
        obtain ⟨a, _, hl, ha, b, l, rfl, hb, -⟩ := hsizes
        simp only [pop_of_values hl, pop_withValues, bind, Except.bind] at h
        obtain ⟨-, -, rfl⟩ := (pushAll_eq_ok (by simp)).1 h
        exact ⟨_, hl ▸ .dup2X2Wides l ha hb, rfl⟩
      · next hsizes =>
        cases hform
        simp only [map_eq_cons_iff] at hsizes
        obtain ⟨a, _, hl, ha, b, _, rfl, hb, d, l, rfl, hd, -⟩ := hsizes
        simp only [pop_of_values hl, pop_withValues, bind, Except.bind] at h
        obtain ⟨-, -, rfl⟩ := (pushAll_eq_ok (by simp)).1 h
        exact ⟨_, hl ▸ .dup2X2Over l ha hb hd, rfl⟩
      · next hsizes =>
        cases hform
        simp only [map_eq_cons_iff] at hsizes
        obtain ⟨a, _, hl, ha, b, _, rfl, hb, d, l, rfl, hd, -⟩ := hsizes
        simp only [pop_of_values hl, pop_withValues, bind, Except.bind] at h
        obtain ⟨-, -, rfl⟩ := (pushAll_eq_ok (by simp)).1 h
        exact ⟨_, hl ▸ .dup2X2Under l ha hb hd, rfl⟩
      · next hsizes =>
        cases hform
        simp only [map_eq_cons_iff] at hsizes
        obtain ⟨a, _, hl, ha, b, _, rfl, hb, d, _, rfl, hd, e, l, rfl, he, -⟩ := hsizes
        simp only [pop_of_values hl, pop_withValues, bind, Except.bind] at h
        obtain ⟨-, -, rfl⟩ := (pushAll_eq_ok (by simp)).1 h
        exact ⟨_, hl ▸ .dup2X2 l ha hb hd he, rfl⟩
      · cases hform
  | swap =>
    obtain ⟨a, _, ⟨_, hl, rfl⟩, b, _, ⟨l, rfl, rfl⟩, h⟩ := h
    obtain ⟨-, -, rfl⟩ := (pushAll_eq_ok (by simp)).1 h
    exact ⟨_, hl ▸ .swap a b l, rfl⟩

end Frame

/-! ### Instructions -/

/-- A number, an initialized object or null. -/
def ValueType.isPlain : ValueType → Bool
  | .int | .long | .float | .double | .null | .reference _ => true
  | _ => false

theorem ValueType.isPlain_ofFieldType (t : FieldType) : (ofFieldType t).isPlain = true := by
  unfold ofFieldType
  split
  · rfl
  · split <;> rfl

theorem ValueType.isPlain_ofNumeric (n : Numeric) : (ofNumeric n).isPlain = true := by
  cases n <;> rfl

theorem MethodContext.isPlain_constantType {c : MethodContext} {ins : Instruction} {t : ValueType}
    (h : c.constantType ins = .ok t) : t.isPlain = true := by
  unfold constantType at h
  split at h <;> cases h <;> rfl

theorem MethodContext.isPlain_classType {ins : Instruction} {name : String} {t : ValueType}
    (h : classType ins name = .ok t) : t.isPlain = true := by
  obtain ⟨type, -, rfl⟩ := map_eq_ok.1 (mapError_eq_ok.1 h)
  exact isPlain_ofFieldType type

/-- Where an instruction has a plain value from that was not on the stack. -/
inductive Made (c : MethodContext) (ins : Instruction) (f : Frame) : ValueType → Prop
  | simple {v : ValueType} (plain : v.isPlain = true) (object : ∀ name, v ≠ .reference name) :
      Made c ins f v
  | constant {v : ValueType} (constant : c.constantType ins = .ok v) : Made c ins f v
  | component {array : ValueType} {s : FieldType} (onStack : array ∈ f.stack.values)
      (component : array.component? = some s) : Made c ins f (ofFieldType s)
  | field {access : FieldAccess} {ref : MemberRef} {type : FieldType}
      (action : ins.action = .field access) (operand : c.fieldOperand ins = .ok (ref, type)) :
      Made c ins f (ofFieldType type)
  | result {kind : InvokeKind} {ref : MemberRef} {type : MethodType} {result : FieldType}
      (action : ins.action = .invoke kind) (operand : c.methodOperand ins kind = .ok (ref, type))
      (returned : result ∈ type.result) : Made c ins f (ofFieldType result)
  | named {name : String} {v : ValueType}
      (action : ins.action = .newMultiArray ∨ ins.action = .checkCast)
      (operand : c.classOperand ins = .ok name)
      (type : MethodContext.classType ins name = .ok v) : Made c ins f v
  | arrayOf {name : String} {v : ValueType} (action : ins.action = .newRefArray)
      (operand : c.classOperand ins = .ok name)
      (type : MethodContext.classType ins name = .ok v) (known : v.arrayOf ≠ .unknown) :
      Made c ins f v.arrayOf
  | elements (action : ins.action = .newArray) :
      Made c ins f (.reference ("[" ++ elementDescriptor ins.elementCode))
  | nullPointer : Made c ins f (.reference nullPointerClass)

/-- Where a value on the stack comes from: it was there before, or it is plain, or it comes from the
local variable that is loaded, or it is a new object. -/
def Source (c : MethodContext) (ins : Instruction) (f : Frame) (v : ValueType) : Prop :=
  v ∈ f.stack.values ∨ Made c ins f v ∨
    (∃ kind i, ins.action = .load kind i ∧ f.locals[ins.index]? = some v) ∨
    (ins.action = .allocate ∧ ∃ name, c.classOperand ins = .ok name ∧
      v = .uninitialized name ins.pos)

/-- What an instruction has done to the values of a frame. -/
inductive Effect (c : MethodContext) (ins : Instruction) (f : Frame) : Frame → Prop
  | values {vs : List ValueType} (source : ∀ v ∈ vs, Source c ins f v) :
      Effect c ins f (f.withValues vs)
  /-- A return address is on top. -/
  | call (action : ins.action = .jsr) :
      Effect c ins f (f.withValues (.returnAddress ins.next :: f.stack.values))
  /-- The top went to a local variable. -/
  | store {kind : Kind} {i : Option Nat} {t : ValueType} {vs : List ValueType}
      (action : ins.action = .store kind i) (top : f.stack.values = t :: vs) :
      Effect c ins f { f.withValues vs with locals := Frame.storedLocals f.locals ins.index t }
  /-- A constructor was called on the object of a marker. -/
  | construct {kind : InvokeKind} {ref : MemberRef} {type : MethodType} {marker : ValueType}
      {vs : List ValueType} (action : ins.action = .invoke kind)
      (operand : c.methodOperand ins kind = .ok (ref, type))
      (constructor : ref.name = constructorName)
      (receiver : f.stack.values[type.args.length]? = some marker)
      (source : ∀ v ∈ vs, v ∈ (f.initializeObject marker).stack.values ∨ Made c ins f v) :
      Effect c ins f ({ f.initializeObject marker with
        thisUninitialized := f.thisUninitialized && !marker.isUninitializedThis }.withValues vs)

variable {c : MethodContext} {ins : Instruction} {f out : Frame}

theorem Made.isPlain {v : ValueType} (h : Made c ins f v) : v.isPlain = true := by
  cases h with
  | simple plain => exact plain
  | constant constant => exact MethodContext.isPlain_constantType constant
  | component | field | result => exact isPlain_ofFieldType _
  | named _ _ type => exact MethodContext.isPlain_classType type
  | @arrayOf _ v _ _ _ known => cases v <;> simp_all [ValueType.arrayOf, ValueType.isPlain]
  | elements | nullPointer => rfl

theorem Made.ofNumeric (n : Numeric) : Made c ins f (ofNumeric n) :=
  .simple (isPlain_ofNumeric n) (by cases n <;> simp [ValueType.ofNumeric])

namespace Effect

theorem idle (f : Frame) : Effect c ins f f := by
  show Effect c ins f (f.withValues f.stack.values)
  exact .values fun v hv => .inl hv

theorem top {t : ValueType} {vs : List ValueType} (ht : Source c ins f t)
    (hvs : ∀ v ∈ vs, v ∈ f.stack.values) : Effect c ins f (f.withValues (t :: vs)) := by
  refine .values fun v hv => ?_
  rcases mem_cons.1 hv with rfl | hv
  · exact ht
  · exact .inl (hvs v hv)

theorem of_push {t : ValueType} (h : f.push t = .ok out) (ht : Source c ins f t) :
    Effect c ins f out := by
  obtain ⟨-, -, rfl⟩ := push_eq_ok.1 h
  exact .top ht fun _ => id

theorem of_popN {n : Nat} (h : f.popN n = .ok out) : Effect c ins f out := by
  obtain ⟨-, rfl⟩ := popN_eq_ok.1 h
  exact .values fun v hv => .inl (mem_of_mem_drop hv)

theorem of_replace {n : Nat} {t : ValueType} (h : f.replace n t = .ok out)
    (ht : Made c ins f t) : Effect c ins f out := by
  obtain ⟨-, -, -, rfl⟩ := replace_eq_ok.1 h
  exact .top (.inr (.inl ht)) fun _ => mem_of_mem_drop

theorem of_loadElement {access : ElementAccess} (h : f.loadElement ins access = .ok out) :
    Effect c ins f out := by
  simp only [loadElement, bind_eq_ok, Prod.exists, pop_eq_ok] at h
  obtain ⟨i, _, ⟨_, hl, rfl⟩, array, _, ⟨l, rfl, rfl⟩, h⟩ := h
  have hpush : ∀ t, Made c ins f t → (f.withValues l).push t = .ok out → Effect c ins f out := by
    intro t ht hpush
    obtain ⟨-, -, rfl⟩ := push_eq_ok.1 hpush
    exact .top (.inr (.inl ht)) fun v hv => hl ▸ mem_cons_of_mem _ (mem_cons_of_mem _ hv)
  split at h
  · refine hpush _ (.simple ?_ ?_) h <;> cases access <;> simp_all [elementType, ValueType.isPlain]
  · split at h
    · exact hpush _ (.simple rfl (by simp)) h
    · split at h
      · next component hcomponent => exact hpush _ (.component (hl ▸ by simp) hcomponent) h
      · cases h

theorem of_runStackOp {op : StackOp} (h : f.runStackOp ins op = .ok out) : Effect c ins f out := by
  obtain ⟨vs, hs, rfl⟩ := runStackOp_ok h
  exact .values fun v hv => .inl (hs.mem hv)

theorem of_raise (h : f.raise = .ok out) : Effect c ins f out := by
  simp only [raise, bind_eq_ok, Prod.exists, pop_eq_ok, push_eq_ok] at h
  obtain ⟨thrown, _, ⟨l, hl, rfl⟩, -, -, rfl⟩ := h
  show Effect c ins f (f.withValues [_])
  refine .top ?_ (by simp)
  split
  · exact .inr (.inl .nullPointer)
  · exact .inl (hl ▸ mem_cons_self)

end Effect

namespace MethodContext

theorem effect_runField {access : FieldAccess} (hact : ins.action = .field access)
    (h : c.runField ins access f = .ok out) : Effect c ins f out := by
  obtain ⟨⟨ref, type⟩, hoperand, h⟩ := bind_eq_ok.1 h
  have htype : Made c ins f (ofFieldType type) := .field hact hoperand
  cases access with
  | getStatic => exact .of_push h (.inr (.inl htype))
  | putStatic | put => exact .of_popN h
  | get => exact .of_replace h htype

theorem values_popN_result {g : Frame} {n : Nat} {result : Option FieldType}
    (h : (do
      let f ← g.popN n
      match result with
      | some result => f.push (.ofFieldType result)
      | none => return f) = .ok out) :
    ∃ vs, out = g.withValues vs ∧
      ∀ v ∈ vs, v ∈ g.stack.values ∨ ∃ type ∈ result, v = ofFieldType type := by
  simp only [bind_eq_ok, popN_eq_ok] at h
  obtain ⟨_, ⟨-, rfl⟩, h⟩ := h
  cases result with
  | none =>
    cases h
    exact ⟨_, rfl, fun v hv => .inl (mem_of_mem_drop hv)⟩
  | some result =>
    obtain ⟨-, -, rfl⟩ := push_eq_ok.1 h
    refine ⟨_, rfl, fun v hv => ?_⟩
    rcases mem_cons.1 hv with rfl | hv
    · exact .inr ⟨result, rfl, rfl⟩
    · exact .inl (mem_of_mem_drop hv)

theorem effect_runInvoke {kind : InvokeKind} (hact : ins.action = .invoke kind)
    (h : c.runInvoke ins kind f = .ok out) : Effect c ins f out := by
  unfold runInvoke at h
  simp only [bind_eq_ok] at h
  obtain ⟨⟨ref, type⟩, hoperand, h⟩ := h
  have hresult : ∀ {v}, (∃ result ∈ type.result, v = ofFieldType result) → Made c ins f v := by
    rintro _ ⟨result, hresult, rfl⟩
    exact .result hact hoperand hresult
  split at h
  · next hname =>
    obtain ⟨marker, hmarker, h⟩ := bind_eq_ok.1 h
    obtain ⟨vs, rfl, hvs⟩ := values_popN_result h
    have hflag : (if marker.isUninitializedThis then
          { f.initializeObject marker with thisUninitialized := false }
        else f.initializeObject marker) = { f.initializeObject marker with
          thisUninitialized := f.thisUninitialized && !marker.isUninitializedThis } := by
      cases marker.isUninitializedThis <;> simp [initializeObject]
    rw [hflag] at hvs ⊢
    exact .construct hact hoperand hname (Stack.peek_eq_ok.1 hmarker) fun v hv =>
      (hvs v hv).imp_right hresult
  · obtain ⟨vs, rfl, hvs⟩ := values_popN_result h
    exact .values fun v hv => (hvs v hv).imp_right fun hv => .inl (hresult hv)

/-- Every instruction that runs does one of four things to the values of the frame. -/
theorem effect_run (h : c.run ins f = .ok out) : Effect c ins f out := by
  have hsimple : ∀ {v : ValueType}, v.isPlain = true → (∀ name, v ≠ .reference name) →
      Source c ins f v := fun hplain hobject => .inr (.inl (.simple hplain hobject))
  cases hact : ins.action with simp only [run, hact] at h
  | nop | goto | ret | iinc =>
    cases h
    exact .idle f
  | constNull => exact .of_push h (hsimple rfl (by simp))
  | const n => exact .of_push h (.inr (.inl (.ofNumeric n)))
  | loadConst =>
    obtain ⟨t, ht, h⟩ := bind_eq_ok.1 h
    exact .of_push h (.inr (.inl (.constant ht)))
  | load kind i =>
    obtain ⟨t, ht, h⟩ := bind_eq_ok.1 h
    exact .of_push h (.inr (.inr (.inl ⟨kind, i, hact, getLocal_eq_ok.1 ht⟩)))
  | store kind i =>
    obtain ⟨t, vs, hv, -, -, rfl⟩ := store_eq_ok.1 h
    exact .store hact hv
  | arrayLoad => exact .of_loadElement h
  | arrayStore | branch | switch | monitor => exact .of_popN h
  | stack => exact .of_runStackOp h
  | arith _ _ result => exact .of_replace h (.ofNumeric result)
  | jsr =>
    obtain ⟨-, -, rfl⟩ := push_eq_ok.1 h
    exact .call hact
  | leave value =>
    cases value with
    | none =>
      cases h
      exact .idle f
    | some => exact .of_popN h
  | field => exact effect_runField hact h
  | invoke => exact effect_runInvoke hact h
  | allocate =>
    obtain ⟨name, hname, h⟩ := bind_eq_ok.1 h
    exact .of_push h (.inr (.inr (.inr ⟨hact, name, hname, rfl⟩)))
  | newArray => exact .of_replace h (.elements hact)
  | arrayLength | instanceOf => exact .of_replace h (.simple rfl (by simp))
  | newRefArray =>
    simp only [bind_eq_ok, popN_eq_ok, push_eq_ok] at h
    obtain ⟨_, ⟨-, rfl⟩, name, hname, element, helement, hknown, -, rfl⟩ := h
    exact .top (.inr (.inl (.arrayOf hact hname helement hknown))) fun _ => mem_of_mem_drop
  | newMultiArray | checkCast =>
    simp only [bind_eq_ok] at h
    obtain ⟨name, hname, type, ht, h⟩ := h
    exact .of_replace h (.named (by simp [hact]) hname ht)
  | raise => exact .of_raise h
  | wide => cases h

end MethodContext

end Bytecode
