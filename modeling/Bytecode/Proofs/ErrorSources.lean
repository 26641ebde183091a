import Bytecode.Proofs.Capacity
import Bytecode.Proofs.NamedClasses

/-!
Where failures come from: once a method is prepared, the demands of its instructions and the merges
of its frames fail only with errors that the hierarchy answered with. What it was asked about is
named in the frames or by the operands.

Main statement: `check_fails`, for the demands of an instruction.
-/
namespace Bytecode

open ValueType Hierarchy Bytecode.Frame

/-- A failure that passes on an error with which the hierarchy answered a question. -/
def InternalError.Wraps (h : Hierarchy) : InternalError → Prop
  | .loadClass name cause => h.lookup name = .error cause
  | .loadSuperclasses sub cause => ∃ super, h.isSubclassOf sub super = .error cause
  | .loadCommonSuperclass a b cause => h.commonSuperclass a.name b.name = .error cause
  | .memberOperand _ cause => ∃ owner name desc, h.resolveField owner name desc = .error cause ∨
      h.resolveMethod owner name desc = .error cause ∨
      h.resolveInterfaceMethod owner name desc = .error cause
  | _ => False

/-- A rejection, or a failure that passes on an error of the hierarchy. -/
def Failure.Wraps (h : Hierarchy) : Failure → Prop
  | .rejected _ => True
  | .internal e => e.Wraps h

/-- A failure that passes on an error with which the hierarchy answered a question about classes
with the property `N`. Only for a field the question is about whatever the operand of an instruction
in `code` names. -/
def InternalError.Concerns (c : MethodContext) (N : String → Prop) (code : Array Instruction) :
    InternalError → Prop
  | .loadClass name cause => N name ∧ c.hierarchy.lookup name = .error cause
  | .loadSuperclasses sub cause =>
    N sub ∧ ∃ super, c.hierarchy.isSubclassOf sub super = .error cause
  | .loadCommonSuperclass a b cause =>
    N a.name ∧ N b.name ∧ c.hierarchy.commonSuperclass a.name b.name = .error cause
  | .memberOperand ins cause => cause.isMissingMember = false ∧
      ((∃ access ref type, ins ∈ code ∧ ins.action = .field access ∧
          c.fieldOperand ins = .ok (ref, type) ∧
          c.hierarchy.resolveField ref.owner ref.name ref.descriptor = .error cause) ∨
        ∃ owner name desc, N owner ∧ (c.hierarchy.resolveMethod owner name desc = .error cause ∨
            c.hierarchy.resolveInterfaceMethod owner name desc = .error cause))
  | _ => False

/-- A rejection, or a failure that passes on an error of the hierarchy about classes with the
property `N`. -/
def Failure.Concerns (c : MethodContext) (N : String → Prop) (code : Array Instruction) :
    Failure → Prop
  | .rejected _ => True
  | .internal e => e.Concerns c N code

/-- Every failure is a rejection or concerns classes with the property `N`. -/
abbrev FailsOver (c : MethodContext) (N : String → Prop) (code : Array Instruction) {α : Type}
    (r : Except Failure α) : Prop :=
  FailsOnly (Failure.Concerns c N code) r

/-- Every error concerns classes with the property `N`. -/
abbrev FailsAbout (c : MethodContext) (N : String → Prop) (code : Array Instruction) {α : Type}
    (r : Except InternalError α) : Prop :=
  FailsOnly (InternalError.Concerns c N code) r

theorem InternalError.Concerns.wraps {c : MethodContext} {N : String → Prop}
    {code : Array Instruction} {e : InternalError} (h : e.Concerns c N code) :
    e.Wraps c.hierarchy := by
  cases e with
  | loadClass | loadSuperclasses => exact h.2
  | loadCommonSuperclass => exact h.2.2
  | memberOperand =>
    rcases h.2 with ⟨-, ref, -, -, -, -, hfield⟩ | ⟨owner, name, desc, -, hmethod⟩
    · exact ⟨_, _, _, .inl hfield⟩
    · exact ⟨owner, name, desc, .inr hmethod⟩
  | _ => exact h

theorem Failure.Concerns.wraps {c : MethodContext} {N : String → Prop} {code : Array Instruction}
    {e : Failure} (h : e.Concerns c N code) : e.Wraps c.hierarchy := by
  cases e with
  | rejected => trivial
  | internal => exact InternalError.Concerns.wraps h

section

variable {α β : Type} {c : MethodContext} {N : String → Prop} {code : Array Instruction}

theorem FailsOnly.known {r : Except InternalError α} (hr : FailsAbout c N code r) :
    FailsOver c N code (Bytecode.known r) :=
  .mapError hr

theorem FailsOnly.rejected (r : Rejection) :
    FailsOver c N code (.error (.rejected r) : Except Failure α) :=
  .error trivial

theorem FailsOnly.reject (ins : Instruction) (complaint : Complaint) :
    FailsOver c N code (ins.reject complaint : Except Failure α) :=
  .rejected _

theorem FailsOnly.unless {p : Prop} [Decidable p] {r : Rejection} {k : β → Except Failure α}
    {y : Except Failure α} (hy : ¬p → FailsOver c N code y) :
    FailsOver c N code (if p then Except.error (.rejected r) >>= k else y) :=
  .ite (fun _ => .rejected r) hy

theorem FailsOnly.guard {p : Prop} [Decidable p] {r : Rejection} {a : α} :
    FailsOver c N code (if p then .error (.rejected r) else .ok a) :=
  .ite (fun _ => .rejected r) fun _ => .ok a

/-! ### The order of types -/

namespace Hierarchy

variable {a b value target : ValueType} {sub super name : String}

theorem knownInterface_fails (hname : N name) :
    FailsAbout c N code (c.hierarchy.knownInterface name) :=
  .mapError (.map fun _ he => ⟨hname, he⟩)

theorem knownSubclass_fails (hsub : N sub) :
    FailsAbout c N code (c.hierarchy.knownSubclass sub super) :=
  .mapError fun _ he => ⟨hsub, super, he⟩

theorem joinClasses_fails (ha : N a.name) (hb : N b.name) :
    FailsAbout c N code (c.hierarchy.joinClasses a b) := by
  unfold joinClasses
  refine .bind (knownInterface_fails ha) fun _ _ => .ite (fun _ => .pure _) fun _ => ?_
  refine .bind (knownInterface_fails hb) fun _ _ => .ite (fun _ => .pure _) fun _ => ?_
  exact .bind (.mapError fun _ he => ⟨ha, hb, he⟩) fun _ _ => .pure _

theorem isClass_of_isReference (href : a.isReference = true) (hnull : a ≠ .null)
    (hclass : ¬a.isArray = true) : a.isClass = true := by
  obtain ⟨name, rfl⟩ := eq_reference_of_isReference href hnull
  simpa [isArray, isClass] using hclass

theorem join_fails (ha : a.Over N) (hb : b.Over N) (hra : a.isReference = true)
    (hrb : b.isReference = true) : FailsAbout c N code (c.hierarchy.join a b) := by
  fun_induction join c.hierarchy a b with
  | case1 | case2 | case3 | case5 | case6 => exact .ok _
  | case4 a b _ _ _ _ ca cb hca hcb hboth _ ih =>
    rw [Bool.and_eq_true] at hboth
    exact .map (ih (ha.component hca) (hb.component hcb) (isReference_ofFieldType hboth.1)
      (isReference_ofFieldType hboth.2))
  | case7 a b _ hna hnb hclass =>
    rw [Bool.or_eq_true, not_or] at hclass
    exact joinClasses_fails (ha.of_isClass (isClass_of_isReference hra hna hclass.1))
      (hb.of_isClass (isClass_of_isReference hrb hnb hclass.2))

theorem assignable_fails (hvalue : value.Over N) (htarget : target.Over N) :
    FailsAbout c N code (c.hierarchy.assignable value target) := by
  fun_induction assignable c.hierarchy value target with
  | case1 | case2 | case4 | case5 | case6 | case7 | case9 => exact .ok _
  | case3 v w _ _ cv cw hcv hcw _ _ _ ih =>
    exact ih (hvalue.component hcv) (htarget.component hcw)
  | case8 v w hw =>
    have hw' : N w := (over_class (by simpa [isArray] using hw)).1 htarget
    refine .bind (knownInterface_fails hw') fun _ _ => .ite (fun _ => .pure _) fun _ => ?_
    refine .ite (fun _ => .pure _) fun hv => knownSubclass_fails ?_
    exact (over_class (by simpa [isArray] using hv)).1 hvalue

theorem mergeStackEntry_fails {i : Nat} (ha : a.Over N) (hb : b.Over N) :
    FailsOver c N code (c.hierarchy.mergeStackEntry i a b) := by
  unfold mergeStackEntry
  refine .ite (fun _ => .ok _) fun _ => .ite (fun _ => .rejected _) fun _ => ?_
  refine .ite (fun _ => .rejected _) fun _ => .ite (fun href => ?_) fun _ => .rejected _
  rw [Bool.and_eq_true] at href
  exact .mapError (join_fails ha hb href.1 href.2)

theorem mergeLocal_fails {i : Nat} (ha : a.Over N) (hb : b.Over N) :
    FailsOver c N code (c.hierarchy.mergeLocal i a b) := by
  unfold mergeLocal
  refine .ite (fun _ => .ok _) fun _ => .ite (fun _ => ?_) fun _ => ?_
  · exact .ite (fun _ => .rejected _) fun _ => .rejected _
  · refine .ite (fun _ => .ok _) fun _ => .ite (fun href => ?_) fun _ => .ok _
    rw [Bool.and_eq_true] at href
    refine .mapError (join_fails ?_ hb href.1 href.2)
    split
    · next hmarker => exact ha.initialized hmarker
    · exact ha

end Hierarchy

theorem mergeEntries_fails {merge : Nat → ValueType → ValueType → Except Failure ValueType}
    {mine theirs : List ValueType}
    (hmerge : ∀ i, ∀ a ∈ mine, ∀ b ∈ theirs, FailsOver c N code (merge i a b))
    {e : Failure} (he : (mergeEntries merge mine theirs).2 = .error e) : e.Concerns c N code := by
  unfold mergeEntries at he
  generalize 0 = i at he
  generalize ([] : List ValueType) = merged at he
  generalize false = changed at he
  fun_induction mergeEntries.go merge i merged changed mine theirs with
  | case1 i merged changed a mine b theirs d hd ih =>
    exact ih (fun i a ha b hb => hmerge i a (List.mem_cons_of_mem _ ha) b
      (List.mem_cons_of_mem _ hb)) he
  | case2 i merged changed a mine b theirs e' he' =>
    cases he
    exact hmerge i a List.mem_cons_self b List.mem_cons_self _ he'
  | case3 => cases he

/-- Frames with as many local variables as each other can be merged unless a join fails. -/
theorem Frame.merge_fails {f g m : Frame} {e : Failure} (hf : f.Over N) (hg : g.Over N)
    (hlocals : f.locals.size = g.locals.size)
    (he : merge c.hierarchy f g = (m, .error e)) : e.Concerns c N code := by
  unfold merge at he
  split at he
  · next stack e' hstack =>
    cases he
    unfold mergeStack at hstack
    split at hstack
    · cases hstack
      trivial
    · simp only [Prod.mk.injEq] at hstack
      refine mergeEntries_fails (fun i a ha b hb => ?_) hstack.2
      exact mergeStackEntry_fails (hf a (.inl (List.mem_reverse.1 ha)))
        (hg b (.inl (List.mem_reverse.1 hb)))
  · split at he
    · next locals e' hmerged =>
      cases he
      unfold mergeLocals at hmerged
      rw [if_neg (not_not.2 hlocals)] at hmerged
      simp only [Prod.mk.injEq] at hmerged
      refine mergeEntries_fails (fun i a ha b hb => ?_) hmerged.2
      exact mergeLocal_fails (hf a (.inr (Array.mem_toList_iff.1 ha)))
        (hg b (.inr (Array.mem_toList_iff.1 hb)))
    · cases he

/-! ### Values -/

namespace Frame

variable {f : Frame} {ins : Instruction}

theorem operand_fails (depth : Nat) : FailsOver c N code (f.operand depth) := by
  unfold operand
  split
  · exact .ok _
  · exact .rejected _

theorem expect_fails (depth : Nat) (want : ValueType) :
    FailsOver c N code (f.expect ins depth want) :=
  .bind (operand_fails depth) fun _ _ => .guard

theorem expectSize_fails (depth size : Nat) : FailsOver c N code (f.expectSize ins depth size) :=
  .bind (operand_fails depth) fun _ _ => .guard

theorem expectReference_fails (depth : Nat) : FailsOver c N code (f.expectReference ins depth) :=
  .bind (operand_fails depth) fun _ _ => .unless fun _ => .unless fun _ => .pure _

theorem expectObject_fails (depth : Nat) : FailsOver c N code (f.expectObject ins depth) :=
  .bind (operand_fails depth) fun _ _ => .guard

theorem expectSlot_fails (size : Nat) : FailsOver c N code (f.expectSlot ins size) :=
  .guard

theorem getLocal_fails {i : Nat} (hi : i < f.locals.size) : FailsAbout c N code (f.getLocal i) := by
  rw [getLocal_eq_ok.2 (Array.getElem?_eq_getElem hi)]
  exact .ok _

theorem checkLoad_fails (kind : Kind) : FailsOver c N code (f.checkLoad ins kind) := by
  refine .bind (expectSlot_fails _) fun _ hslot => ?_
  have hlt := expectSlot_eq_ok.1 hslot
  have hpos : 1 ≤ kind.size := by cases kind with
    | reference => exact Nat.le_refl _
    | numeric n => cases n <;> simp [Kind.size]
  refine .bind (.known (getLocal_fails (by omega))) fun got _ => .unless fun _ => ?_
  have hlast : ∀ x : Except Failure Unit, FailsOver c N code x →
      FailsOver c N code (if kind.size = 2 then do
        let second ← known (f.getLocal ((ins.index + 1 : Nat) : Int))
        if second ≠ .unknown then do
          ins.reject (.localHalf (ins.index + 1) got second)
          x
        else x
      else x) := fun x hx =>
    .ite (fun htwo => .bind (.known (getLocal_fails (by omega))) fun _ _ => .unless fun _ => hx)
      fun _ => hx
  cases kind <;> exact hlast _ .guard

theorem checkStore_fails (kind : Kind) : FailsOver c N code (f.checkStore ins kind) := by
  refine .bind (expectSlot_fails _) fun _ _ => .bind (operand_fails 0) fun got _ => ?_
  split
  · exact .pure _
  · exact .guard
  · exact .guard

theorem checkIncrement_fails : FailsOver c N code (f.checkIncrement ins) := by
  refine .bind (expectSlot_fails _) fun _ hslot => ?_
  refine .bind (.known (getLocal_fails (expectSlot_eq_ok.1 hslot))) fun got _ => ?_
  exact .guard

theorem checkRet_fails : FailsOver c N code (f.checkRet ins) := by
  refine .bind (expectSlot_fails _) fun _ hslot => ?_
  refine .bind (.known (getLocal_fails (expectSlot_eq_ok.1 hslot))) fun got _ => ?_
  split
  · exact .pure _
  · exact .reject _ _

theorem checkArray_fails (depth : Nat) (access : ElementAccess) :
    FailsOver c N code (f.checkArray ins depth access) := by
  refine .bind (operand_fails depth) fun got _ => .ite (fun _ => .pure _) fun _ => ?_
  split
  · exact .reject _ _
  · exact .ite (fun _ => .guard) fun _ =>
      .guard

theorem checkArrayLoad_fails (access : ElementAccess) :
    FailsOver c N code (f.checkArrayLoad ins access) :=
  .bind (expect_fails 0 .int) fun _ _ => checkArray_fails 1 access

theorem checkArrayStore_fails (access : ElementAccess) :
    FailsOver c N code (f.checkArrayStore ins access) := by
  have hrest : FailsOver c N code (do
      f.expect ins 1 .int
      f.checkArray ins 2 access) :=
    .bind (expect_fails 1 .int) fun _ _ => checkArray_fails 2 access
  exact .ite (fun _ => .bind (expectReference_fails 0) fun _ _ => hrest)
    fun _ => .bind (expect_fails 0 _) fun _ _ => hrest

theorem checkArrayLength_fails : FailsOver c N code (f.checkArrayLength ins) :=
  .bind (operand_fails 0) fun _ _ => .guard

theorem checkStackOp_fails (op : StackOp) : FailsOver c N code (f.checkStackOp ins op) := by
  cases op with
  | pop | dup => exact expectSize_fails 0 1
  | pop2 | dup2 =>
    exact .bind (operand_fails 0) fun _ _ => .ite (fun _ => expectSize_fails 1 1) fun _ => .pure _
  | dupX1 | swap => exact .bind (expectSize_fails 0 1) fun _ _ => expectSize_fails 1 1
  | dupX2 =>
    exact .bind (expectSize_fails 0 1) fun _ _ => .bind (operand_fails 1) fun _ _ =>
      .ite (fun _ => expectSize_fails 2 1) fun _ => .pure _
  | dup2X1 =>
    exact .bind (operand_fails 0) fun _ _ => .bind (expectSize_fails 1 1) fun _ _ =>
      .ite (fun _ => expectSize_fails 2 1) fun _ => .pure _
  | dup2X2 => exact .guard

theorem checkCondition_fails (condition : Condition) :
    FailsOver c N code (f.checkCondition ins condition) := by
  cases condition with
  | intZero => exact expect_fails 0 .int
  | intPair => exact .bind (expect_fails 0 .int) fun _ _ => expect_fails 1 .int
  | refPair => exact .bind (expectObject_fails 0) fun _ _ => expectObject_fails 1
  | refNull => exact .map (expectReference_fails 0)

end Frame

end

/-! ### Instructions -/

namespace MethodContext

variable {c : MethodContext} {N : String → Prop} {code : Array Instruction} {f : Frame}
  {ins : Instruction}

theorem checkAssignable_fails {place : Place} {got want : ValueType} (hgot : got.Over N)
    (hwant : want.Over N) : FailsOver c N code (c.checkAssignable ins place got want) := by
  unfold checkAssignable
  split
  · refine .unless fun _ => .bind (.known (assignable_fails hgot hwant)) fun _ _ => ?_
    exact .guard
  · exact .guard

theorem loadClass_fails {name : String} (hname : N name) : FailsAbout c N code (c.loadClass name) :=
  .mapError fun _ he => ⟨hname, he⟩

theorem checkClassAccess_fails {name element : String}
    (hclass : classType ins name = .ok (.reference element)) (hover : (reference element).Over N) :
    FailsOver c N code (c.checkClassAccess ins name) := by
  refine .bind_ok (known_eq_ok.2 hclass) ?_
  split
  · exact .pure _
  · next helement =>
    refine .bind (.known (loadClass_fails (hover _ (named?_of_elementClass? helement))))
      fun _ _ => ?_
    exact .guard

theorem memberAccessible_fails (hc : c.Over N) (decl : Class) (access : AccessFlags) :
    FailsOver c N code (c.memberAccessible decl access) :=
  .ite (fun _ => .ok _) fun _ => .ite (fun _ => .ok _) fun _ => .ite (fun _ => .ok _) fun _ =>
    .ite (fun _ => .known (knownSubclass_fails hc.owner)) fun _ => .ok _

/-- Each answer to the question for a member is passed on, unless it says that the member is
missing. -/
theorem resolved_fails {α : Type} {r : Except HierarchyError α}
    (hr : ∀ cause, r = .error cause → cause.isMissingMember = false →
      (InternalError.memberOperand ins cause).Concerns c N code) :
    FailsOver c N code (resolved ins r) := by
  refine .mapError fun cause hcause => ?_
  simp only
  split
  · trivial
  · next hmissing => exact hr cause hcause (by simpa using hmissing)

theorem resolveField_fails (hc : c.Over N) {access : FieldAccess} (hchecked : c.Checked ins)
    (hins : ins ∈ code) (hact : ins.action = .field access) :
    FailsOver c N code (c.resolveField ins) := by
  obtain ⟨ref, type, element, hoperand, hclass⟩ := hchecked.field hact
  have howner := (hc.fieldOperand hoperand).2 hclass
  refine .bind_ok (known_eq_ok.2 hoperand) ?_
  refine .bind (checkClassAccess_fails hclass howner) fun _ _ => .bind ?_ fun _ _ => ?_
  · refine resolved_fails fun cause hcause hmissing => ⟨hmissing, .inl ?_⟩
    exact ⟨access, ref, type, hins, hact, hoperand, hcause⟩
  · exact .bind (memberAccessible_fails hc _ _) fun _ _ => .unless fun _ => .pure _

theorem resolveMethod_fails (hc : c.Over N) {kind : InvokeKind} (hchecked : c.Checked ins)
    (hact : ins.action = .invoke kind) : FailsOver c N code (c.resolveMethod ins kind) := by
  obtain ⟨ref, type, hoperand, hclass, -⟩ := hchecked.invoke hact
  refine .bind_ok (known_eq_ok.2 hoperand) ?_
  refine .ite (fun _ => .pure _) fun hdynamic => ?_
  obtain ⟨element, hclass⟩ := hclass hdynamic
  have hover := (hc.methodOperand hoperand).2 hdynamic hclass
  -- The owner that is asked about is a class: that of the operand, or the root for an array.
  have howner : N (if namesArray ref.owner then objectClass else ref.owner) := by
    split
    · exact hc.core _ (by simp [coreClasses])
    · next hname =>
      obtain ⟨heq, -⟩ := classType_eq_ok hclass
      rw [heq] at hover
      exact (over_class (by simpa using hname)).1 hover
  refine .ite (fun harray => .bind ?_ fun _ _ => ?_) fun _ => ?_
  · rw [Bool.not_eq_true'] at harray
    rw [harray]
    exact checkClassAccess_fails hclass hover
  all_goals
    refine .bind (resolved_fails fun cause hcause hmissing => ⟨hmissing, .inr ?_⟩) fun _ _ =>
      .unless fun _ => .bind (memberAccessible_fails hc _ _) fun _ _ => .unless fun _ => .pure _
    split at hcause
    · exact ⟨_, _, _, howner, .inr hcause⟩
    · exact ⟨_, _, _, howner, .inl hcause⟩

theorem checkProtectedReceiver_fails (hc : c.Over N) {decl : Class} {access : AccessFlags}
    {name : String} {receiver : ValueType} (hreceiver : receiver.Over N) :
    FailsOver c N code (c.checkProtectedReceiver ins decl access name receiver) := by
  refine .ite (fun _ => .pure _) fun _ => ?_
  refine .bind (.known (knownSubclass_fails hc.owner)) fun _ _ => ?_
  refine .ite (fun _ => .pure _) fun _ => .ite (fun _ => .pure _) fun _ => ?_
  refine .ite (fun _ => .pure _) fun _ => .ite (fun hclass => ?_) fun _ => .reject _ _
  refine .bind (.known (knownSubclass_fails (hreceiver.of_isClass hclass))) fun _ _ => ?_
  exact .ite (fun _ => .pure _) fun _ => .reject _ _

theorem checkReturn_fails (hc : c.Over N) (hf : f.Over N) (value : Option Kind) :
    FailsOver c N code (c.checkReturn ins value f) := by
  unfold checkReturn
  split
  · exact .rejected _
  · exact .guard
  · exact .rejected _
  · next result hresult =>
    refine .unless fun _ => .bind (expectReference_fails 0) fun _ hgot => ?_
    exact checkAssignable_fails (hf.operand (expectReference_eq_ok.1 hgot).1)
      (hc.type.result _ hresult)
  · exact .unless fun _ => expect_fails 0 _

theorem checkFieldStore_fails (hf : f.Over N) {r : ResolvedField} (hr : r.type.Over N)
    (isStatic : Bool) : FailsOver c N code (c.checkFieldStore ins r isStatic f) := by
  refine .bind (operand_fails 0) fun _ hgot => ?_
  have hgot := hf.operand (operand_eq_ok.1 hgot)
  refine .bind (checkAssignable_fails hgot hr) fun _ _ => ?_
  exact .unless fun _ => .guard

theorem checkFieldObject_fails (hc : c.Over N) (hf : f.Over N) {r : ResolvedField}
    (hr : (reference r.ref.owner).Over N) (isPut : Bool) :
    FailsOver c N code (c.checkFieldObject ins r isPut f) := by
  refine .bind (operand_fails _) fun _ hgot => ?_
  have hgot := hf.operand (operand_eq_ok.1 hgot)
  refine .ite (fun _ => ?_) fun _ => .ite (fun _ => ?_) fun _ => .reject _ _
  · exact checkProtectedReceiver_fails hc hgot
  · refine .bind (.known (assignable_fails hgot hr)) fun _ _ => .unless fun _ => ?_
    exact checkProtectedReceiver_fails hc hgot

theorem checkField_fails (hc : c.Over N) (hf : f.Over N) {access : FieldAccess}
    (hchecked : c.Checked ins) (hins : ins ∈ code) (hact : ins.action = .field access) :
    FailsOver c N code (c.checkField ins access f) := by
  refine .bind (resolveField_fails hc hchecked hins hact) fun r hr => .unless fun _ => ?_
  obtain ⟨-, type, hoperand, htype⟩ := resolveField_ok hr
  obtain ⟨ref, type', element, hoperand', hclass⟩ := hchecked.field hact
  cases hoperand.symm.trans hoperand'
  obtain ⟨hover, howner⟩ := hc.fieldOperand hoperand
  have howner := howner hclass
  rw [(classType_eq_ok hclass).1] at howner
  rw [← htype] at hover
  refine .ite (fun _ => .bind (checkFieldStore_fails hf hover _) fun _ _ => ?_) fun _ => ?_
  all_goals exact .ite (fun _ => checkFieldObject_fails hc hf howner _) fun _ => .pure _

theorem checkArguments_fails (hf : f.Over N) {args : List FieldType}
    (hargs : ∀ arg ∈ args, (ofFieldType arg).Over N) :
    FailsOver c N code (c.checkArguments ins args f) := by
  refine .forM fun indexed hindexed => .bind (operand_fails _) fun _ hgot => ?_
  have harg : indexed.1 ∈ args := List.fst_mem_of_mem_zipIdx hindexed
  exact checkAssignable_fails (hf.operand (operand_eq_ok.1 hgot)) (hargs _ harg)

theorem checkConstructorCall_fails (owner : String) (got : ValueType) :
    FailsOver c N code (c.checkConstructorCall ins owner got) := by
  unfold checkConstructorCall
  split
  · exact .guard
  · exact .guard
  · exact .reject _ _

theorem checkReceiver_fails (hc : c.Over N) {ref : MemberRef} {got : ValueType}
    (href : (reference ref.owner).Over N) (hgot : got.Over N) (kind : InvokeKind)
    (method : Method) (decl : Class) :
    FailsOver c N code (c.checkReceiver ins kind ref method decl got) := by
  refine .unless fun _ => .unless fun _ => .ite (fun _ => .pure _) fun _ => ?_
  refine .ite (fun _ => .bind (.known (assignable_fails hgot hc.receiver)) fun _ _ =>
    .unless fun _ => ?_) fun _ => ?_
  all_goals
    refine .bind (.known (assignable_fails hgot href)) fun _ _ => .unless fun _ => ?_
    exact checkProtectedReceiver_fails hc hgot

theorem target_of_ofDynamic {r : ResolvedMethod} (h : c.resolveMethod ins .ofDynamic = .ok r) :
    r.target = none := by
  simp only [resolveMethod, bind_eq_ok, if_true, pure_eq_ok] at h
  obtain ⟨_, -, rfl⟩ := h
  rfl

theorem checkInvoke_fails (hc : c.Over N) (hf : f.Over N) {kind : InvokeKind}
    (hchecked : c.Checked ins) (hact : ins.action = .invoke kind) :
    FailsOver c N code (c.checkInvoke ins kind f) := by
  refine .bind (resolveMethod_fails hc hchecked hact) fun r hr => ?_
  obtain ⟨ref, type, hoperand, hclass, -⟩ := hchecked.invoke hact
  cases (resolveMethod_ok hr).1.symm.trans hoperand
  obtain ⟨htype, howner⟩ := hc.methodOperand hoperand
  refine .bind (checkArguments_fails hf htype.args) fun _ _ => ?_
  split
  · exact .pure _
  · next htarget =>
    refine .ite (fun _ => .guard) fun _ => ?_
    refine .unless fun _ => .unless fun _ => .bind (operand_fails _) fun _ hgot => ?_
    refine .ite (fun _ => checkConstructorCall_fails _ _) fun _ => ?_
    have hdynamic : kind ≠ .ofDynamic := by
      rintro rfl
      rw [target_of_ofDynamic hr] at htarget
      cases htarget
    obtain ⟨element, hclass⟩ := hclass hdynamic
    have howner := howner hdynamic hclass
    rw [(classType_eq_ok hclass).1] at howner
    exact checkReceiver_fails hc howner (hf.operand (operand_eq_ok.1 hgot)) _ _ _

theorem checkAllocate_fails (hc : c.Over N) (hchecked : c.Checked ins)
    (hact : ins.action = .allocate) : FailsOver c N code (c.checkAllocate ins) := by
  obtain ⟨name, element, hname, hclass⟩ := hchecked.className (by simp [hact, Action.namesClass])
  have hover := hc.classOperand hname hclass
  refine .bind_ok (known_eq_ok.2 hname) ?_
  refine .unless fun harray => .bind (checkClassAccess_fails hclass hover) fun _ _ => ?_
  rw [(classType_eq_ok hclass).1] at hover
  have hname : N name := (over_class (by simpa using harray)).1 hover
  refine .bind (.known (loadClass_fails hname)) fun _ _ => ?_
  exact .guard

theorem checkClassOperand_fails (hc : c.Over N) (hchecked : c.Checked ins)
    (hact : ins.action.namesClass = true) : FailsOver c N code (c.checkClassOperand ins) := by
  obtain ⟨name, element, hname, hclass⟩ := hchecked.className hact
  refine .bind_ok (known_eq_ok.2 hname) ?_
  exact checkClassAccess_fails hclass (hc.classOperand hname hclass)

theorem checkRaise_fails (hf : f.Over N) : FailsOver c N code (c.checkRaise ins f) := by
  refine .bind (expectReference_fails 0) fun _ hgot => .ite (fun _ => .pure _) fun _ => ?_
  have hgot := hf.operand (expectReference_eq_ok.1 hgot).1
  refine .unless fun hclass => ?_
  have hname := hgot.of_isClass (by simpa using hclass)
  refine .bind (.known (knownSubclass_fails hname)) fun _ _ => ?_
  exact .guard

theorem stackEffect_fails (hchecked : c.Checked ins) : FailsAbout c N code (c.stackEffect ins) := by
  cases hslots : ins.action.slots? with
  | some slots =>
    rw [stackEffect_of_slots hslots]
    exact .ok _
  | none =>
    rcases Action.of_slots_eq_none hslots with ⟨access, hact⟩ | ⟨kind, hact⟩ | hact
    · obtain ⟨ref, type, -, hoperand, -⟩ := hchecked.field hact
      simp only [stackEffect, hact, hoperand]
      refine .bind (.ok _) fun _ _ => ?_
      cases access <;> exact .pure _
    · obtain ⟨ref, type, hoperand, -⟩ := hchecked.invoke hact
      simp only [stackEffect, hact, hoperand]
      exact .bind (.ok _) fun _ _ => .pure _
    · simp only [stackEffect, hact]
      exact .pure _

theorem checkStackAccess_fails (hchecked : c.Checked ins) :
    FailsOver c N code (c.checkStackAccess ins f) := by
  refine .bind (.known (stackEffect_fails hchecked)) fun _ _ => .unless fun _ => ?_
  exact .ite (fun _ => .rejected _) fun _ => .pure _

theorem checkValues_fails (hc : c.Over N) (hf : f.Over N) (hchecked : c.Checked ins)
    (hins : ins ∈ code) (hwide : ins.action ≠ .wide) :
    FailsOver c N code (c.checkValues ins f) := by
  cases hact : ins.action with simp only [checkValues, hact]
  | nop | constNull | const | loadConst | goto | jsr => exact .ok _
  | load kind => exact checkLoad_fails kind
  | store kind => exact checkStore_fails kind
  | arrayLoad access => exact checkArrayLoad_fails access
  | arrayStore access => exact checkArrayStore_fails access
  | stack op => exact checkStackOp_fails op
  | arith top next =>
    refine .bind (expect_fails 0 _) fun _ _ => ?_
    cases next with
    | none => exact .pure _
    | some next => exact expect_fails 1 _
  | iinc => exact checkIncrement_fails
  | branch condition => exact checkCondition_fails condition
  | ret => exact checkRet_fails
  | switch | newArray => exact expect_fails 0 .int
  | leave value => exact checkReturn_fails hc hf value
  | field => exact checkField_fails hc hf hchecked hins hact
  | invoke => exact checkInvoke_fails hc hf hchecked hact
  | allocate => exact checkAllocate_fails hc hchecked hact
  | newRefArray =>
    refine .bind (expect_fails 0 .int) fun _ _ => ?_
    exact checkClassOperand_fails hc hchecked (by simp [hact, Action.namesClass])
  | newMultiArray =>
    refine .bind (.forM fun _ _ => expect_fails _ .int) fun _ _ => ?_
    exact checkClassOperand_fails hc hchecked (by simp [hact, Action.namesClass])
  | arrayLength => exact checkArrayLength_fails
  | raise => exact checkRaise_fails hf
  | checkCast | instanceOf =>
    refine .bind (expectReference_fails 0) fun _ _ => ?_
    exact checkClassOperand_fails hc hchecked (by simp [hact, Action.namesClass])
  | monitor => exact expectObject_fails 0
  | wide => exact absurd hact hwide

/-- The demands of an instruction whose operands were checked fail only with errors of the
hierarchy, about classes that the frame or the method names. -/
theorem check_fails (hc : c.Over N) (hf : f.Over N) (hchecked : c.Checked ins)
    (hins : ins ∈ code) (hwide : ins.action ≠ .wide) : FailsOver c N code (c.check ins f) :=
  .bind (checkStackAccess_fails hchecked) fun _ _ => checkValues_fails hc hf hchecked hins hwide

end MethodContext

end Bytecode
