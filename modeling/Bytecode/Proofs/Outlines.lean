import Bytecode.Proofs.ErrorSources

/-!
What a verification reads of classes.

Of other classes it reads the names, flags and descriptors, and of its own class the name, the
superclass and the constants. So a verification does not change when all else is taken away from the
classes.

Main statements: `MethodContext.solve_outline` for data flow and `verifyTraced_outline` for
verdicts.
-/
namespace Bytecode

open ValueType

/-- A method as it is seen from elsewhere: without its code. -/
def Method.outline (m : Method) : Method where
  name := m.name
  descriptor := m.descriptor
  access := m.access

/-- A class as others see it: without the code of its methods and its constants. -/
def Class.outline (c : Class) : Class :=
  { c with methods := c.methods.map Method.outline, pool := .empty }

/-- A class as its own methods see it. -/
def Class.withoutMembers (c : Class) : Class :=
  { c with fields := [], methods := [] }

/-! ### The order of types -/

namespace Hierarchy

/-- The same answers, with outlines of classes and methods. -/
def outline (h : Hierarchy) : Hierarchy where
  lookup name := (h.lookup name).map Class.outline
  isSubclassOf := h.isSubclassOf
  commonSuperclass := h.commonSuperclass
  resolveField owner name desc :=
    (h.resolveField owner name desc).map fun r => (r.1, r.2.outline)
  resolveMethod owner name desc :=
    (h.resolveMethod owner name desc).map fun r => (r.1.outline, r.2.outline)
  resolveInterfaceMethod owner name desc :=
    (h.resolveInterfaceMethod owner name desc).map fun r => (r.1.outline, r.2.outline)
  size := h.size

variable (h : Hierarchy) (a b : ValueType)

theorem knownInterface_outline (name : String) :
    h.outline.knownInterface name = h.knownInterface name := by
  show (((h.lookup name).map Class.outline).map Class.isInterface).mapError _ = _
  unfold knownInterface
  cases h.lookup name <;> rfl

theorem joinClasses_outline : h.outline.joinClasses a b = h.joinClasses a b := by
  unfold joinClasses
  rw [knownInterface_outline, knownInterface_outline]
  rfl

theorem join_outline : h.outline.join a b = h.join a b := by
  fun_induction h.join a b with
  | case1 a => rw [join, if_pos rfl]
  | case2 b hne => rw [join, if_neg hne, if_pos rfl]
  | case3 a hne hnull => rw [join, if_neg hne, if_neg hnull, if_pos rfl]
  | case4 a b hne hnull hnull' harray ca cb hca hcb hboth _ ih =>
    rw [join, if_neg hne, if_neg hnull, if_neg hnull', if_pos harray]
    split
    · next ca' cb' hca' hcb' =>
      cases hca.symm.trans hca'
      cases hcb.symm.trans hcb'
      rw [if_pos hboth, ih]
    · next hnone => exact absurd hcb (hnone ca cb hca)
  | case5 a b hne hnull hnull' harray ca cb hca hcb hboth =>
    rw [join, if_neg hne, if_neg hnull, if_neg hnull', if_pos harray]
    split
    · next ca' cb' hca' hcb' =>
      cases hca.symm.trans hca'
      cases hcb.symm.trans hcb'
      rw [if_neg hboth]
    · rfl
  | case6 a b hne hnull hnull' harray hnone =>
    rw [join, if_neg hne, if_neg hnull, if_neg hnull', if_pos harray]
    split
    · next ca cb hca hcb => exact absurd hcb (hnone ca cb hca)
    · rfl
  | case7 a b hne hnull hnull' harray =>
    rw [join, if_neg hne, if_neg hnull, if_neg hnull', if_neg harray, joinClasses_outline]

theorem assignable_outline : h.outline.assignable a b = h.assignable a b := by
  fun_induction h.assignable a b with
  | case1 a => exact assignable_self a
  | case2 name hne => rw [assignable, if_neg hne]
  | case3 v w hw hv cv cw hcv hcw hboth _ hne ih =>
    rw [assignable, if_neg hne]
    dsimp only
    rw [if_pos hw, if_pos hv]
    split
    · next cv' cw' hcv' hcw' =>
      cases hcv.symm.trans hcv'
      cases hcw.symm.trans hcw'
      rw [if_pos hboth, ih]
    · next hnone => exact absurd hcw (hnone cv cw hcv)
  | case4 v w hw hv cv cw hcv hcw hboth hne =>
    rw [assignable, if_neg hne]
    dsimp only
    rw [if_pos hw, if_pos hv]
    split
    · next cv' cw' hcv' hcw' =>
      cases hcv.symm.trans hcv'
      cases hcw.symm.trans hcw'
      rw [if_neg hboth]
    · next hnone => exact absurd hcw (hnone cv cw hcv)
  | case5 v w hw hv hnone hne =>
    rw [assignable, if_neg hne]
    dsimp only
    rw [if_pos hw, if_pos hv]
    split
    · next cv cw hcv hcw => exact absurd hcw (hnone cv cw hcv)
    · rfl
  | case6 v w hw hv hne =>
    rw [assignable, if_neg hne]
    dsimp only
    rw [if_pos hw, if_neg hv]
  | case7 v hw hne =>
    rw [assignable, if_neg hne]
    dsimp only
    rw [if_neg hw, if_pos rfl]
  | case8 v w hw hroot hne =>
    rw [assignable, if_neg hne]
    dsimp only
    rw [if_neg hw, if_neg hroot, knownInterface_outline]
    rfl
  | case9 value target hne hnull href =>
    rw [assignable, if_neg hne]
    · exact hnull
    · exact href

theorem mergeStackEntry_outline (i : Nat) :
    h.outline.mergeStackEntry i a b = h.mergeStackEntry i a b := by
  unfold mergeStackEntry joinReferences
  rw [join_outline]

theorem mergeLocal_outline (i : Nat) : h.outline.mergeLocal i a b = h.mergeLocal i a b := by
  unfold mergeLocal joinReferences
  simp only [join_outline]

end Hierarchy

theorem Frame.merge_outline (h : Hierarchy) (f g : Frame) : merge h.outline f g = merge h f g := by
  have hstack : h.outline.mergeStackEntry = h.mergeStackEntry := by
    funext i a b
    exact h.mergeStackEntry_outline a b i
  have hlocals : h.outline.mergeLocal = h.mergeLocal := by
    funext i a b
    exact h.mergeLocal_outline a b i
  unfold merge mergeStack mergeLocals
  rw [hstack, hlocals]

/-! ### Demands -/

theorem Except.map_bind {ε α β γ : Type} (x : Except ε α) (φ : α → β) (k : β → Except ε γ) :
    (x.map φ >>= k) = x >>= fun a => k (φ a) := by
  cases x <;> rfl

theorem Except.bind_map {ε α β γ : Type} (x : Except ε α) (k : α → Except ε β) (φ : β → γ) :
    (x >>= k).map φ = x >>= fun a => (k a).map φ := by
  cases x <;> rfl

theorem known_map {α β : Type} (r : Except InternalError α) (φ : α → β) :
    known (r.map φ) = (known r).map φ := by
  cases r <;> rfl

/-- A resolved field with the outline of the class that declares it. -/
def ResolvedField.outline (r : ResolvedField) : ResolvedField :=
  { r with decl := r.decl.outline }

/-- A resolved method with the outlines of the method and of the class that declares it. -/
def ResolvedMethod.outline (r : ResolvedMethod) : ResolvedMethod :=
  { r with target := r.target.map fun target => (target.1.outline, target.2.outline) }

namespace MethodContext

/-- The surroundings of an instruction with outlines of the other classes, and the own class without
its members. -/
def outline (c : MethodContext) : MethodContext :=
  { c with hierarchy := c.hierarchy.outline, owner := c.owner.withoutMembers }

variable (c : MethodContext) (ins : Instruction) (f : Frame)

theorem loadClass_outline (name : String) :
    c.outline.loadClass name = (c.loadClass name).map Class.outline := by
  show ((c.hierarchy.lookup name).map Class.outline).mapError _ = _
  unfold loadClass
  cases c.hierarchy.lookup name <;> rfl

theorem checkClassAccess_outline (name : String) :
    c.outline.checkClassAccess ins name = c.checkClassAccess ins name := by
  refine bind_congr fun type => ?_
  cases type.elementClass? with
  | none => rfl
  | some element =>
    dsimp only
    rw [loadClass_outline, known_map, Except.map_bind]
    rfl

theorem memberAccessible_outline (decl : Class) (access : AccessFlags) :
    c.outline.memberAccessible decl.outline access = c.memberAccessible decl access := rfl

theorem resolved_map {α β : Type} (r : Except HierarchyError α) (φ : α → β) :
    resolved ins (r.map φ) = (resolved ins r).map φ := by
  cases r <;> rfl

theorem resolveField_outline :
    c.outline.resolveField ins = (c.resolveField ins).map ResolvedField.outline := by
  unfold resolveField
  rw [Except.bind_map]
  refine bind_congr fun operand => ?_
  obtain ⟨ref, type⟩ := operand
  dsimp only
  rw [checkClassAccess_outline, Except.bind_map]
  refine bind_congr fun _ => ?_
  rw [show c.outline.hierarchy.resolveField ref.owner ref.name ref.descriptor =
      (c.hierarchy.resolveField ref.owner ref.name ref.descriptor).map _ from rfl, resolved_map,
    Except.map_bind, Except.bind_map]
  refine bind_congr fun found => ?_
  obtain ⟨field, decl⟩ := found
  dsimp only
  rw [memberAccessible_outline, Except.bind_map]
  refine bind_congr fun accessible => ?_
  cases accessible <;> rfl

theorem targetOf_outline (tag : Tag) (owner name desc : String) :
    (if tag = .interfaceMethodref then
        c.outline.hierarchy.resolveInterfaceMethod owner name desc
      else c.outline.hierarchy.resolveMethod owner name desc) =
      (if tag = .interfaceMethodref then c.hierarchy.resolveInterfaceMethod owner name desc
        else c.hierarchy.resolveMethod owner name desc).map
          fun r => (r.1.outline, r.2.outline) := by
  split <;> rfl

theorem targetAccess_outline (ref : MemberRef) (type : MethodType) (owner : String)
    (found : Except Failure (Method × Class)) :
    (do
      let (method, decl) ← found.map fun r => (r.1.outline, r.2.outline)
      if ref.name = constructorName ∧ decl.name ≠ owner then
        ins.reject (.noConstructor owner ref.descriptor)
      if !(← c.outline.memberAccessible decl method.access) then
        ins.reject (.methodAccess decl.name method.text method.access c.outline.owner.name)
      return { ref, type, target := some (method, decl) }) =
    Except.map ResolvedMethod.outline (do
      let (method, decl) ← found
      if ref.name = constructorName ∧ decl.name ≠ owner then
        ins.reject (.noConstructor owner ref.descriptor)
      if !(← c.memberAccessible decl method.access) then
        ins.reject (.methodAccess decl.name method.text method.access c.owner.name)
      return { ref, type, target := some (method, decl) }) := by
  rw [Except.map_bind, Except.bind_map]
  refine bind_congr fun target => ?_
  obtain ⟨method, decl⟩ := target
  dsimp only
  rw [memberAccessible_outline, show decl.outline.name = decl.name from rfl]
  by_cases hname : ref.name = constructorName ∧ decl.name ≠ owner
  · rw [if_pos hname, if_pos hname]
    rfl
  · rw [if_neg hname, if_neg hname, Except.bind_map]
    refine bind_congr fun accessible => ?_
    cases accessible <;> rfl

theorem resolveMethod_outline (kind : InvokeKind) :
    c.outline.resolveMethod ins kind = (c.resolveMethod ins kind).map ResolvedMethod.outline := by
  unfold resolveMethod
  rw [Except.bind_map]
  refine bind_congr fun operand => ?_
  obtain ⟨ref, type⟩ := operand
  dsimp only
  split
  · rfl
  · rw [checkClassAccess_outline]
    generalize (if namesArray ref.owner = true then objectClass else ref.owner) = owner
    rw [targetOf_outline, resolved_map]
    split
    · rw [Except.bind_map]
      refine bind_congr fun _ => ?_
      exact targetAccess_outline c ins ref type owner _
    · exact targetAccess_outline c ins ref type owner _

theorem outline_assignable (got want : ValueType) :
    c.outline.hierarchy.assignable got want = c.hierarchy.assignable got want :=
  c.hierarchy.assignable_outline got want

theorem checkAssignable_outline (place : Place) (got want : ValueType) :
    c.outline.checkAssignable ins place got want = c.checkAssignable ins place got want := by
  unfold checkAssignable
  simp only [outline_assignable]

theorem checkReturn_outline (value : Option Kind) :
    c.outline.checkReturn ins value f = c.checkReturn ins value f := by
  unfold checkReturn
  simp only [checkAssignable_outline]
  rfl

theorem checkFieldStore_outline (r : ResolvedField) (isStatic : Bool) :
    c.outline.checkFieldStore ins r.outline isStatic f = c.checkFieldStore ins r isStatic f := by
  unfold checkFieldStore
  simp only [checkAssignable_outline]
  rfl

theorem checkFieldObject_outline (r : ResolvedField) (isPut : Bool) :
    c.outline.checkFieldObject ins r.outline isPut f = c.checkFieldObject ins r isPut f := by
  unfold checkFieldObject
  simp only [outline_assignable]
  rfl

theorem checkField_outline (access : FieldAccess) :
    c.outline.checkField ins access f = c.checkField ins access f := by
  unfold checkField
  rw [resolveField_outline, Except.map_bind]
  refine bind_congr fun r => ?_
  simp only [checkFieldStore_outline, checkFieldObject_outline]
  rfl

theorem checkArguments_outline (args : List FieldType) :
    c.outline.checkArguments ins args f = c.checkArguments ins args f := by
  unfold checkArguments
  simp only [checkAssignable_outline]

theorem checkReceiver_outline (kind : InvokeKind) (ref : MemberRef) (method : Method)
    (decl : Class) (got : ValueType) :
    c.outline.checkReceiver ins kind ref method.outline decl.outline got =
      c.checkReceiver ins kind ref method decl got := by
  unfold checkReceiver
  simp only [outline_assignable]
  rfl

theorem checkInvoke_outline (kind : InvokeKind) :
    c.outline.checkInvoke ins kind f = c.checkInvoke ins kind f := by
  unfold checkInvoke
  rw [resolveMethod_outline, Except.map_bind]
  refine bind_congr fun r => ?_
  simp only [show r.outline.type = r.type from rfl, checkArguments_outline]
  refine bind_congr fun _ => ?_
  obtain ⟨ref, type, target⟩ := r
  cases target with
  | none => rfl
  | some target =>
    simp only [ResolvedMethod.outline, Option.map_some, checkReceiver_outline]
    rfl

theorem checkAllocate_outline : c.outline.checkAllocate ins = c.checkAllocate ins := by
  unfold checkAllocate
  simp only [checkClassAccess_outline, loadClass_outline, known_map, Except.map_bind]
  rfl

theorem checkClassOperand_outline : c.outline.checkClassOperand ins = c.checkClassOperand ins := by
  unfold checkClassOperand
  simp only [checkClassAccess_outline]
  rfl

theorem checkRaise_outline : c.outline.checkRaise ins f = c.checkRaise ins f := rfl

theorem checkValues_outline : c.outline.checkValues ins f = c.checkValues ins f := by
  unfold checkValues
  simp only [checkReturn_outline, checkField_outline, checkInvoke_outline, checkAllocate_outline,
    checkClassOperand_outline, checkRaise_outline]

theorem check_outline : c.outline.check ins f = c.check ins f := by
  unfold check
  rw [checkValues_outline]
  rfl

theorem run_outline : c.outline.run ins f = c.run ins f := rfl

/-! ### Data flow -/

variable (g : FlowGraph) (chain : CallChain) (s : FlowState)

theorem runNode_outline (n : Nat) : c.outline.runNode g n f chain s = c.runNode g n f chain s := by
  unfold runNode
  simp only [check_outline, run_outline]

theorem execute_outline (n : Nat) : c.outline.execute g n f chain s = c.execute g n f chain s := by
  have hmerge : ∀ stored, Frame.merge c.outline.hierarchy stored f =
      Frame.merge c.hierarchy stored f := fun stored => Frame.merge_outline c.hierarchy stored f
  unfold execute
  simp only [runNode_outline, hmerge]

theorem executeAll_outline (ns : List Nat) :
    c.outline.executeAll g f chain s ns = c.executeAll g f chain s ns := by
  induction ns generalizing s with
  | nil => rfl
  | cons n ns ih => simp only [executeAll, execute_outline, ih]

theorem executeHandlers_outline (n : Nat) (key : CallKey) (guards : List Guard) :
    c.outline.executeHandlers g n key f s guards = c.executeHandlers g n key f s guards := by
  induction guards generalizing s with
  | nil => rfl
  | cons guard guards ih => simp only [executeHandlers, execute_outline, ih]

theorem visit_outline (item : WorkItem) : c.outline.visit g item s = c.visit g item s := by
  unfold visit
  simp only [executeAll_outline, executeHandlers_outline]

theorem settle_outline (fuel : Nat) (queue : List WorkItem) :
    c.outline.settle g fuel queue s = c.settle g fuel queue s := by
  induction fuel generalizing queue s with
  | zero => cases queue <;> rfl
  | succ fuel ih =>
    cases queue with
    | nil => rfl
    | cons item queue => simp only [settle, visit_outline, ih]

theorem scanExit_outline (n : Nat) (row : List (CallKey × Frame)) :
    c.outline.scanExit n ins s row = c.scanExit n ins s row := by
  induction row generalizing s with
  | nil => rfl
  | cons entry row ih =>
    obtain ⟨key, out⟩ := entry
    simp only [scanExit, recheckReturn, checkReturn_outline, ih]

theorem scanExits_outline (ns : List Nat) : c.outline.scanExits g s ns = c.scanExits g s ns := by
  induction ns generalizing s with
  | nil => rfl
  | cons n ns ih => simp only [scanExits, scanExit_outline, ih]

theorem solve_outline : c.outline.solve g = c.solve g := by
  unfold solve
  rw [show c.outline.initialFrame = c.initialFrame from rfl,
    show c.outline.visitBound g = c.visitBound g from rfl]
  simp only [execute_outline, settle_outline, scanExits_outline]

end MethodContext

/-- A verification asks for no more than outlines of classes, and for no members of its own. -/
theorem verifyTraced_outline (h : Hierarchy) (options : VerifyOptions) (runId : String)
    (owner : Class) (m : Method) :
    verifyTraced h.outline options runId owner.withoutMembers m =
      verifyTraced h options runId owner m := by
  have hsolve : ∀ type g, MethodContext.solve ⟨h.outline, owner.withoutMembers, m, type⟩ g =
      MethodContext.solve ⟨h, owner, m, type⟩ g := fun type g =>
    MethodContext.solve_outline ⟨h, owner, m, type⟩ g
  unfold verifyTraced
  simp only [hsolve]
  rfl

theorem verify_outline (h : Hierarchy) (options : VerifyOptions) (runId : String) (owner : Class)
    (m : Method) :
    verify h.outline options runId owner.withoutMembers m = verify h options runId owner m :=
  congrArg Verification.verdict (verifyTraced_outline h options runId owner m)

end Bytecode
