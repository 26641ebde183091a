import Bytecode.Proofs.LimitChanges

/-!
Instructions take and leave the slots that their stack effects say.

Main statement: `run_realizes_stackEffect`, for all instructions but the one that throws, which
clears the stack.
-/
namespace Bytecode

open ValueType Bytecode.Frame

/-! ### Room -/

namespace Frame

/-- The frame under another limit. -/
def within (f : Frame) (limit : Int) : Frame :=
  { f with stack := { f.stack with max := limit } }

/-- If the outcome of `r` is within the limit, then `r'` has the same outcome under the limit. -/
def Narrows (limit : Int) (r r' : Except InternalError Frame) : Prop :=
  ∀ out, r = .ok out → (slotsOf out.stack.values : Int) ≤ limit → r' = .ok (out.within limit)

/-- Another limit for the stack alone. -/
def LimitChange.within (limit : Int) : LimitChange where
  apply f := f.within limit
  values _ := rfl
  withValues _ _ := rfl
  getLocal h := h
  store _ _ := rfl
  receiver _ _ := rfl

end Frame

namespace MethodContext

variable {c : MethodContext} {ins : Instruction} {f out : Frame} {limit : Int}

/-- An instruction needs no more room than the frames before and after it take: pushing, which is
refused beyond the limit, comes after popping. -/
theorem run_narrows : Frame.Narrows limit (c.run ins f) (c.run ins (f.within limit)) := by
  have hinit : ∀ marker ∈ f.stack.values,
      (f.initializeObject marker).within limit = (f.within limit).initializeObject marker := by
    intro marker _
    rfl
  exact run_carries (φ := .within limit) hinit

/-! ### Local variables -/

variable {t : ValueType} {ref : MemberRef}

/-- What an instruction may do to a local variable: nothing; or write it, if it is a store; or, if it
calls a constructor on the object whose marker is there, put the class of the object in its place. -/
inductive LocalChange (c : MethodContext) (ins : Instruction) (f out : Frame) (i : Nat) : Prop
  | kept (same : out.locals[i]? = f.locals[i]?)
  | stored {kind : Kind} {index : Option Nat} (action : ins.action = .store kind index)
      (above : ins.index ≤ i) (below : i < ins.index + kind.size)
  | initialized {ref : MemberRef} {type : MethodType} {marker : ValueType}
      (action : ins.action = .invoke .ofSpecial)
      (operand : c.methodOperand ins .ofSpecial = .ok (ref, type))
      (constructor : ref.name = constructorName)
      (receiver : f.stack.values[type.args.length]? = some marker)
      (uninitialized : marker.isUninitialized = true)
      (before : f.locals[i]? = some marker) (after : out.locals[i]? = some marker.initialized)

theorem localChange_store {kind : Kind} {index : Option Nat} {values : List ValueType}
    (hact : ins.action = .store kind index) (hsize : t.size = kind.size) (i : Nat) :
    LocalChange c ins f
      { f.withValues values with locals := storedLocals f.locals ins.index t } i := by
  by_cases hi : ins.index ≤ i ∧ i < ins.index + kind.size
  · exact .stored hact hi.1 hi.2
  · refine .kept (getElem?_storedLocals_of_ne ?_ ?_)
    · have hpos := size_pos t
      omega
    · omega

theorem localChange_construct {type : MethodType} {marker : ValueType}
    (hact : ins.action = .invoke .ofSpecial)
    (hoperand : c.methodOperand ins .ofSpecial = .ok (ref, type))
    (hname : ref.name = constructorName) (hreceiver : f.stack.values[type.args.length]? = some marker)
    (huninitialized : marker.isUninitialized = true)
    (hlocals : out.locals = (f.initializeObject marker).locals) (i : Nat) :
    LocalChange c ins f out i := by
  have hget : out.locals[i]? =
      f.locals[i]?.map fun t => if t = marker then marker.initialized else t := by
    rw [hlocals]
    exact Array.getElem?_map
  by_cases hmarker : f.locals[i]? = some marker
  · refine .initialized hact hoperand hname hreceiver huninitialized hmarker ?_
    rw [hmarker] at hget
    simpa using hget
  · refine .kept (hget.trans ?_)
    cases hlocal : f.locals[i]? with
    | none => rfl
    | some t =>
      have hne : t ≠ marker := by
        rintro rfl
        exact hmarker hlocal
      simp [hne]

/-- Local variables change only by stores and by constructor calls. -/
theorem localChange_run (hchecked : c.Checked ins) (hvalues : c.checkValues ins f = .ok ())
    (hrun : c.run ins f = .ok out) (i : Nat) : LocalChange c ins f out i := by
  cases effect_run hrun with
  | values => exact .kept rfl
  | call => exact .kept rfl
  | @store kind index t values hact htop =>
    simp only [checkValues, hact] at hvalues
    obtain ⟨-, got, hgot, hstores⟩ := checkStore_eq_ok.1 hvalues
    have hsame : t = got := by simpa [htop] using hgot
    exact localChange_store hact (hsame ▸ size_of_stores hstores) i
  | construct hact hoperand hname hreceiver =>
    simp only [checkValues, hact] at hvalues
    obtain ⟨ref, type, hoperand', -, hconstructor⟩ := hchecked.invoke hact
    cases hoperand.symm.trans hoperand'
    obtain rfl := (hconstructor hname).1
    obtain ⟨marker, hreceiver', huninitialized⟩ :=
      (operands_of_checkInvoke hoperand hvalues).2 rfl hname
    cases hreceiver.symm.trans hreceiver'
    refine localChange_construct hact hoperand hname hreceiver huninitialized ?_ i
    rfl

/-! ### Instructions of prepared methods -/

theorem kindSize_pos (kind : Kind) : 0 < kind.size := by
  cases kind with
  | reference => decide
  | numeric n => cases n <;> decide

/-- Operands that pass their check for the method pass it for every frame that keeps the demands. -/
theorem checkOperands_of_checkValues (hchecked : c.Checked ins)
    (hvalues : c.checkValues ins f = .ok ()) : checkOperands c.pool f.locals.size ins = .ok () := by
  have hslot : ∀ {size : Nat}, 0 < size → ins.index + size ≤ f.locals.size →
      checkSlot f.locals.size ins size = .ok () := by
    intro size hpos hle
    unfold checkSlot
    exact if_neg (by omega)
  have hindex : ∀ {t : ValueType}, f.locals[ins.index]? = some t →
      ins.index + 1 ≤ f.locals.size := by
    intro t ht
    exact (Array.getElem?_eq_some_iff.1 ht).1
  unfold Checked checkOperands at hchecked
  unfold checkOperands
  cases hact : ins.action with simp only [checkValues, hact] at hchecked hvalues ⊢
  | load kind => exact hslot (kindSize_pos kind) (checkLoad_eq_ok.1 hvalues).1
  | store kind => exact hslot (kindSize_pos kind) (checkStore_eq_ok.1 hvalues).1
  | iinc => exact hslot Nat.one_pos (hindex (checkIncrement_eq_ok.1 hvalues))
  | ret =>
    obtain ⟨x, hx⟩ := checkRet_eq_ok.1 hvalues
    exact hslot Nat.one_pos (hindex hx)
  | loadConst twoSlots => cases twoSlots <;> exact hchecked
  | invoke kind => cases kind <;> exact hchecked
  | _ => exact hchecked

/-- An instruction whose demands hold can be run on frames of any size, and what it leaves has
the same size and limit, and the slots of its stack effect. -/
theorem exists_run (hchecked : c.Checked ins) (hraise : ins.action ≠ .raise)
    (hunknown : unknown ∉ f.stack.values)
    (hroom : (slotsOf f.stack.values : Int) ≤ f.stack.max) (hcheck : c.check ins f = .ok ())
    {slots : Nat × Nat} (heffect : c.stackEffect ins = .ok slots) :
    ∃ out, c.run ins f = .ok out ∧ unknown ∉ out.stack.values ∧
      (slotsOf out.stack.values : Int) ≤ out.stack.max ∧ out.stack.max = f.stack.max ∧
      out.locals.size = f.locals.size ∧
      slotsOf out.stack.values + slots.1 = slotsOf f.stack.values + slots.2 := by
  -- The limits that a method declares are read only in its initial frame.
  let c' : MethodContext :=
    { c with method := { c.method with maxStack := f.stack.max, maxLocals := f.locals.size } }
  have hfits : c'.Fits f := ⟨rfl, hroom, hunknown, rfl⟩
  have hchecked' : c'.Checked ins := by
    show checkOperands c.pool f.locals.size ins = .ok ()
    exact checkOperands_of_checkValues hchecked (check_eq_ok.1 hcheck).2
  obtain ⟨out, hrun, hout, hslots⟩ := run_exchanges hfits hchecked' hraise hcheck heffect
  exact ⟨out, hrun, hout.values, hout.room, hout.max, hout.locals, hslots⟩

/-- On every frame where the demands of an instruction hold, the instruction runs, and the slots in
use change by its stack effect. It needs no more room than the frames before and after it take, since
it runs in the same way under every limit that these keep and no push goes past the limit. No unknown
value comes on the stack, and local variables change only by stores and by constructor calls. -/
theorem run_realizes_stackEffect (h : Hierarchy) (owner : Class) (m : Method) (p : PreparedCode)
    (ins : Instruction) (f : Frame) (hp : m.prepare owner.pool = .ok p) (hins : ins ∈ p.code)
    (hraise : ins.action ≠ .raise) (hunknown : ValueType.unknown ∉ f.stack.values)
    (hroom : (f.stack.slots : Int) ≤ f.stack.max)
    (hcheck : check ⟨h, owner, m, p.type⟩ ins f = .ok ()) :
    ∃ pops pushes out,
      stackEffect ⟨h, owner, m, p.type⟩ ins = .ok (pops, pushes) ∧
      run ⟨h, owner, m, p.type⟩ ins f = .ok out ∧
      pops ≤ f.stack.slots ∧ out.stack.slots = f.stack.slots - pops + pushes ∧
      out.stack.max = f.stack.max ∧ (out.stack.slots : Int) ≤ f.stack.max ∧
      (∀ limit : Int, f.stack.slots ≤ limit → out.stack.slots ≤ limit →
        run ⟨h, owner, m, p.type⟩ ins (f.within limit) = .ok (out.within limit)) ∧
      ValueType.unknown ∉ out.stack.values ∧ out.locals.size = f.locals.size ∧
      ∀ i, LocalChange ⟨h, owner, m, p.type⟩ ins f out i := by
  have hprepared := Method.prepared_of_prepare hp
  have hchecked : Checked ⟨h, owner, m, p.type⟩ ins := hprepared.operands ins hins
  obtain ⟨haccess, hvalues⟩ := check_eq_ok.1 hcheck
  obtain ⟨pops, pushes, heffect, hpops, -⟩ := checkStackAccess_eq_ok.1 haccess
  simp only [Stack.slots_eq] at hroom ⊢
  obtain ⟨out, hrun, hvalues', hroom', hmax, hsize, hslots⟩ :=
    exists_run hchecked hraise hunknown hroom hcheck heffect
  simp only at hslots
  refine ⟨pops, pushes, out, heffect, hrun, hpops, by omega, hmax, hmax ▸ hroom', ?_, hvalues',
    hsize, localChange_run hchecked hvalues hrun⟩
  intro limit _ hlimit
  exact run_narrows out hrun hlimit

/-- Copies the top two slots under the two below them. -/
def copyUnder : Method where
  name := "copyUnder"
  descriptor := "()V"
  access := .staticBit
  maxStack := 6
  maxLocals := 0
  -- dup2_x2, return
  code := [0x5e, 0xb1]

/-- A class for this method. -/
def copyingClass : Class where
  name := "app/Copying"
  super := some objectClass

/-- A long over an int and an object. -/
def wideOverSingles : Frame where
  stack := { values := [.long, .int, .reference objectClass], max := 6 }
  locals := #[]

theorem run_realizes_stackEffect_copyUnder : ∃ p ins pops pushes out,
    copyUnder.prepare copyingClass.pool = .ok p ∧ ins ∈ p.code ∧
    ins.action = .stack .dup2X2 ∧ wideOverSingles.stack.slots = 4 ∧
    stackEffect ⟨ClassTable.hierarchy ⟨[]⟩, copyingClass, copyUnder, p.type⟩ ins =
      .ok (pops, pushes) ∧
    run ⟨ClassTable.hierarchy ⟨[]⟩, copyingClass, copyUnder, p.type⟩ ins
      wideOverSingles = .ok out ∧
    pops ≤ 4 ∧ out.stack.slots = 4 - pops + pushes ∧ out.stack.slots ≤ 6 := by
  obtain ⟨p, hp, ins, hins, _, hcheck, hact⟩ : ∃ p,
      copyUnder.prepare copyingClass.pool = .ok p ∧ ∃ ins, p.code[0]? = some ins ∧
      ∃ u, check ⟨ClassTable.hierarchy ⟨[]⟩, copyingClass, copyUnder, p.type⟩ ins
        wideOverSingles = .ok u ∧ ins.action = .stack .dup2X2 := by decide +kernel
  have hmem : ins ∈ p.code := Array.mem_of_getElem? hins
  obtain ⟨pops, pushes, out, heffect, hrun, hpops, hslots, -, hroom, -⟩ :=
    run_realizes_stackEffect (ClassTable.hierarchy ⟨[]⟩) copyingClass copyUnder p ins
      wideOverSingles hp hmem (by simp [hact]) (by simp [wideOverSingles]) (by decide) hcheck
  exact ⟨p, ins, pops, pushes, out, hp, hmem, hact, rfl, heffect, hrun, hpops, hslots,
    Int.ofNat_le.1 hroom⟩

end MethodContext

end Bytecode
