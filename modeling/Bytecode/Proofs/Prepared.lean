import Bytecode.Transfer
import Bytecode.Proofs.CodeLayout

/-!
What the checks before data flow promise.

Main statement: `FlowGraph.build_rejects`, the graph of code that passed the checks can only be
rejected, not fail.
-/
namespace Bytecode

open ConstantPool FieldType

/-! ### Types of classes -/

theorem BaseType.head_descriptor (t : BaseType) : t.descriptor.toList.head? ≠ some '[' := by
  cases t <;> simp [descriptor, String.toList_append]

theorem FieldType.isReference_of_isArray {t : FieldType} (h : t.isArray = true) :
    t.isReference = true := by
  simp [isReference, h]

theorem FieldType.isReference_of_parseClass {name : String} {t : FieldType}
    (h : parseClass name = .ok t) : t.isReference = true := by
  unfold parseClass at h
  split at h
  · next tail hname =>
    have hdescriptor := congrArg String.toList (descriptor_of_parse h)
    refine isReference_of_isArray ?_
    cases hdims : t.dims with
    | zero =>
      simp only [descriptor, hdims, List.replicate_zero, String.toList_append,
        String.toList_ofList, List.nil_append, hname] at hdescriptor
      have hhead := t.element.head_descriptor
      rw [hdescriptor] at hhead
      exact absurd rfl hhead
    | succ n => simp [isArray, hdims]
  · split at h
    · cases h
    · cases h
      rfl

namespace ConstantPool

variable {pool : ConstantPool} {ins : Instruction}

theorem expectTag_eq_ok {tags : List Tag} : pool.expectTag ins tags = .ok () ↔
    ∃ tag ∈ tags, pool.tag? ins.index = some tag := by
  unfold expectTag
  split
  · next hnone => simp [hnone]
  · next tag htag =>
    simp only [htag, Option.some.injEq, exists_eq_right']
    by_cases hmem : tag ∈ tags <;> simp [hmem]

/-- No descriptor is empty, so a member with a readable type is in the pool. -/
theorem memberRef_of_memberOrNone {i : Int} (h : (pool.memberOrNone i).descriptor ≠ "") :
    pool.memberRef i = .ok (pool.memberOrNone i) := by
  unfold memberOrNone at h ⊢
  cases href : pool.memberRef i with
  | error e => simp [href, Except.toOption] at h
  | ok ref => rfl

theorem checkField_ok (h : pool.checkField ins = .ok ()) : ∃ ref type owner,
    pool.memberRef ins.index = .ok ref ∧ parse ref.descriptor = .ok type ∧
      parseClass ref.owner = .ok owner := by
  simp only [checkField, bind_eq_ok, mapError_eq_ok, pure_eq_ok, and_true] at h
  obtain ⟨-, -, type, htype, owner, howner⟩ := h
  refine ⟨_, type, owner, memberRef_of_memberOrNone fun hempty => ?_, htype, howner⟩
  rw [hempty] at htype
  cases htype

theorem checkInvoke_ok {kind : InvokeKind} (h : pool.checkInvoke ins kind = .ok ()) :
    ∃ ref type owner, pool.memberRef ins.index = .ok ref ∧
      MethodType.parse ref.descriptor = .ok type ∧ parseClass ref.owner = .ok owner ∧
      (ref.name = constructorName → kind = .ofSpecial ∧ type.result = none) := by
  simp only [checkInvoke, bind_eq_ok, mapError_eq_ok, ite_error_bind_eq_ok, exists_unit] at h
  obtain ⟨-, -, type, htype, -, h⟩ := h
  have href : pool.memberRef ins.index = .ok (pool.memberOrNone ins.index) := by
    refine memberRef_of_memberOrNone fun hempty => ?_
    rw [hempty] at htype
    cases htype
  split at h
  · next hname =>
    simp only [ite_error_bind_eq_ok, bind_eq_ok, mapError_eq_ok, pure_eq_ok, and_true, ne_eq,
      Decidable.not_not, Bool.not_eq_true, Option.isSome_eq_false_iff,
      Option.isNone_iff_eq_none] at h
    obtain ⟨hkind, hresult, owner, howner⟩ := h
    exact ⟨_, type, owner, href, htype, howner, fun _ => ⟨hkind, hresult⟩⟩
  · next hname =>
    simp only [bind_eq_ok, mapError_eq_ok, pure_eq_ok, and_true] at h
    obtain ⟨owner, howner⟩ := h
    exact ⟨_, type, owner, href, htype, howner, fun h => absurd h hname⟩

theorem checkDynamic_ok (h : pool.checkDynamic ins = .ok ()) : ∃ name desc type,
    pool.invokeDynamic ins.index = .ok (name, desc) ∧ MethodType.parse desc = .ok type ∧
      name ≠ constructorName := by
  simp only [checkDynamic, bind_eq_ok, exists_unit, ite_error_bind_eq_ok, mapError_eq_ok,
    pure_eq_ok, and_true, not_or] at h
  obtain ⟨-, ⟨hname, -⟩, type, htype⟩ := h
  cases hsite : pool.invokeDynamic ins.index with
  | error e =>
    rw [hsite] at htype
    cases htype
  | ok site =>
    rw [hsite] at hname htype
    exact ⟨site.1, site.2, type, rfl, htype, hname⟩

theorem checkClass_ok {name : String} {type : FieldType}
    (h : pool.checkClass ins = .ok (name, type)) :
    pool.className ins.index = .ok name ∧ parseClass name = .ok type := by
  simp only [checkClass, bind_eq_ok, exists_unit, mapError_eq_ok, pure_eq_ok, Prod.mk.injEq] at h
  obtain ⟨-, type, htype, hname, rfl⟩ := h
  cases hclass : pool.className ins.index with
  | error e =>
    rw [hclass] at htype
    cases htype
  | ok name' =>
    rw [hclass] at htype hname
    cases hname
    exact ⟨rfl, htype⟩

end ConstantPool

/-! ### Instructions -/

/-- The actions that name a class. -/
def Action.namesClass : Action → Bool
  | .allocate | .checkCast | .instanceOf | .newRefArray | .newMultiArray => true
  | _ => false

namespace MethodContext

variable {c : MethodContext} {ins : Instruction}

/-- The operands of an instruction pass their check. -/
def Checked (c : MethodContext) (ins : Instruction) : Prop :=
  checkOperands c.pool c.method.maxLocals ins = .ok ()

theorem classType_of_parseClass (ins : Instruction) {name : String} {type : FieldType}
    (h : parseClass name = .ok type) :
    ∃ element, classType ins name = .ok (.reference element) := by
  have href := isReference_of_parseClass h
  refine ⟨(ValueType.ofFieldType type).name, ?_⟩
  simp only [classType, ValueType.ofClassRef, h, mapError_eq_ok]
  show Except.ok (ValueType.ofFieldType type) = _
  rw [Except.ok.injEq]
  unfold isReference at href
  unfold ValueType.ofFieldType
  split
  · rfl
  · next harray =>
    simp only [harray, Bool.false_or] at href
    split at href
    · next hobject => simp [hobject, ValueType.name]
    · cases href

theorem Checked.field {access : FieldAccess} (h : c.Checked ins)
    (hact : ins.action = .field access) : ∃ ref type element,
    c.fieldOperand ins = .ok (ref, type) ∧
      classType ins ref.owner = .ok (.reference element) := by
  simp only [Checked, checkOperands, hact] at h
  obtain ⟨ref, type, owner, href, htype, howner⟩ := checkField_ok h
  obtain ⟨element, helement⟩ := classType_of_parseClass ins howner
  refine ⟨ref, type, element, ?_, helement⟩
  simp [fieldOperand, href, htype, bind, Except.bind, mapError_ok, pure, Except.pure]

theorem Checked.invoke {kind : InvokeKind} (h : c.Checked ins)
    (hact : ins.action = .invoke kind) : ∃ ref type,
    c.methodOperand ins kind = .ok (ref, type) ∧
      (kind ≠ .ofDynamic → ∃ element, classType ins ref.owner = .ok (.reference element)) ∧
      (ref.name = constructorName → kind = .ofSpecial ∧ type.result = none) := by
  simp only [Checked, checkOperands, hact] at h
  by_cases hdynamic : kind = .ofDynamic
  · subst hdynamic
    obtain ⟨name, desc, type, hsite, htype, hname⟩ := checkDynamic_ok h
    refine ⟨⟨.invokeDynamic, "", name, desc⟩, type, ?_, by simp, fun h => absurd h hname⟩
    simp [methodOperand, hsite, htype, bind, Except.bind, Except.map, mapError_ok, pure,
      Except.pure]
  · have h : c.pool.checkInvoke ins kind = .ok () := by
      cases kind with
      | ofDynamic => exact absurd rfl hdynamic
      | _ => exact h
    obtain ⟨ref, type, owner, href, htype, howner, hname⟩ := checkInvoke_ok h
    refine ⟨ref, type, ?_, fun _ => classType_of_parseClass ins howner, hname⟩
    simp [methodOperand, hdynamic, href, htype, bind, Except.bind, mapError_ok, pure, Except.pure]

theorem Checked.className (h : c.Checked ins) (hact : ins.action.namesClass = true) :
    ∃ name element, c.classOperand ins = .ok name ∧
      classType ins name = .ok (.reference element) := by
  obtain ⟨⟨name, type⟩, hclass⟩ : ∃ r, c.pool.checkClass ins = .ok r := by
    unfold Checked checkOperands at h
    cases haction : ins.action with
      simp only [haction, Action.namesClass, Bool.false_eq_true] at hact h
    | allocate | checkCast | instanceOf =>
      obtain ⟨r, hr, -⟩ := map_eq_ok.1 h
      exact ⟨r, hr⟩
    | newRefArray | newMultiArray =>
      obtain ⟨r, hr, -⟩ := bind_eq_ok.1 h
      exact ⟨r, hr⟩
  obtain ⟨hname, htype⟩ := checkClass_ok hclass
  obtain ⟨element, helement⟩ := classType_of_parseClass ins htype
  exact ⟨name, element, by simp [classOperand, hname, mapError_ok], helement⟩

theorem Checked.constant {twoSlots : Bool} (h : c.Checked ins)
    (hact : ins.action = .loadConst twoSlots) : ∃ t, c.constantType ins = .ok t ∧
      t.size = if twoSlots then 2 else 1 := by
  unfold Checked checkOperands at h
  cases twoSlots with simp only [hact, expectTag_eq_ok] at h
  | false =>
    obtain ⟨tag, hmem, htag⟩ := h
    simp only [List.mem_cons, List.not_mem_nil, or_false] at hmem
    rcases hmem with rfl | rfl | rfl | rfl | rfl | rfl <;>
      simp [constantType, htag, ValueType.size]
  | true =>
    obtain ⟨tag, hmem, htag⟩ := h
    simp only [List.mem_cons, List.not_mem_nil, or_false] at hmem
    rcases hmem with rfl | rfl <;> simp [constantType, htag, ValueType.size]

end MethodContext

/-! ### Methods -/

/-- What a prepared method is: its code is laid out as decoded, every operand passes its check and
the limits hold. -/
structure Method.Prepared (m : Method) (pool : ConstantPool) (p : PreparedCode) : Prop where
  laid : Laid p.code
  operands : ∀ ins ∈ p.code, checkOperands pool m.maxLocals ins = .ok ()
  stack : 0 ≤ m.maxStack
  locals : m.incomingSlots p.type ≤ m.maxLocals
  handlers : ∀ h i, m.handlers[i]? = some h →
    checkHandler pool (indexOffsets p.code) (codeEnd p.code) h i = .ok ()

theorem Method.prepared_of_prepare {m : Method} {pool : ConstantPool} {p : PreparedCode}
    (h : m.prepare pool = .ok p) : m.Prepared pool p := by
  simp only [prepare, bind_eq_ok, mapError_eq_ok, ite_error_bind_eq_ok, exists_unit, forM_eq_ok,
    List.forM_eq_forM, pure_eq_ok] at h
  obtain ⟨type, -, -, hlimits, code, hcode, hoperands, hhandlers, rfl⟩ := h
  simp only [checkLimits, ite_error_eq_ok, not_or, Int.not_lt, and_true] at hlimits
  exact
    { laid := laid_of_decode hcode
      operands := fun ins hins => hoperands ins (Array.mem_toList_iff.2 hins)
      stack := hlimits.1.1
      locals := hlimits.2.2.1
      handlers := fun h i hi => hhandlers (h, i) (List.mem_zipIdx_iff_getElem?.2 hi) }

/-! ### Graphs -/

section Graph

variable {code : Array Instruction} {g : CodeEdges} {pool : ConstantPool}

variable {ins : Instruction} {table : List Handler}

theorem CodeEdges.node_of_pos (hnodes : g.nodes = indexOffsets code) (hlaid : Laid code)
    (hins : ins ∈ code) : ∃ n, g.node ins.pos = .ok n := by
  obtain ⟨n, hn⟩ := Array.getElem?_of_mem hins
  refine ⟨n, ?_⟩
  rw [node, node?, hnodes, hlaid.instructionAt?_complete hn]

theorem CodeEdges.node_of_next (hnodes : g.nodes = indexOffsets code) (hlaid : Laid code) {n : Nat}
    (hins : code[n]? = some ins) (hends : ins.op.endsFlow = false) :
    ∃ m, g.node ins.next = .ok m := by
  have hlt := hlaid.succ_lt hins hends
  rw [← hlaid.adjacent n ins code[n + 1] hins (Array.getElem?_eq_getElem hlt)]
  exact node_of_pos hnodes hlaid (Array.getElem_mem hlt)

theorem CodeEdges.staticSuccessors_ok (hnodes : g.nodes = indexOffsets code) (hlaid : Laid code)
    (hins : ins ∈ code) : ∃ ns, g.staticSuccessors ins = .ok ns := by
  obtain ⟨n, hn⟩ := Array.getElem?_of_mem hins
  have htarget : ∀ target ∈ ins.branchTargets, ∃ m, g.node target = .ok m := by
    intro target htarget
    obtain ⟨other, hother, rfl⟩ := hlaid.branches ins hins target htarget
    exact node_of_pos hnodes hlaid hother
  obtain ⟨targets, htargets, -⟩ := exists_mapM_eq_ok htarget
  have hnext : ins.op.endsFlow = false → ∃ m, g.node ins.next = .ok m :=
    node_of_next hnodes hlaid hn
  cases hact : ins.action with simp only [staticSuccessors, hact]
  | ret | leave | raise => exact ⟨[], rfl⟩
  | jsr | goto | switch =>
    simp only [htargets, bind, Except.bind, pure, Except.pure]
    exact ⟨_, rfl⟩
  | branch =>
    obtain ⟨m, hm⟩ := hnext (by simp [Opcode.endsFlow, show ins.op.action = _ from hact])
    simp only [hm, htargets, bind, Except.bind, pure, Except.pure]
    exact ⟨_, rfl⟩
  | _ =>
    obtain ⟨m, hm⟩ := hnext (by simp [Opcode.endsFlow, show ins.op.action = _ from hact])
    simp only [hm, bind, Except.bind, pure, Except.pure]
    exact ⟨_, rfl⟩

theorem CodeEdges.guard_ok (hnodes : g.nodes = indexOffsets code) (hcode : g.code = code)
    {h : Handler} {i : Nat}
    (hcheck : checkHandler pool (indexOffsets code) (codeEnd code) h i = .ok ()) :
    ∃ guard, g.guard pool h i = .ok guard := by
  simp only [checkHandler, isStart, ite_error_bind_eq_ok, Bool.not_eq_true', Bool.not_eq_false,
    Option.isSome_iff_exists] at hcheck
  obtain ⟨⟨start, hstart⟩, hstop, -, ⟨entry, hentry⟩, hcaught⟩ := hcheck
  obtain ⟨stop, hstop⟩ : ∃ stop, (g.node? h.stop <|>
      if h.stop = g.codeLength then some g.size else none) = some stop := by
    rw [node?, hnodes, codeLength, hcode]
    by_cases hend : h.stop = codeEnd code
    · cases hnode : instructionAt? (indexOffsets code) h.stop with
      | some n => exact ⟨n, rfl⟩
      | none => exact ⟨g.size, by simp [hend]⟩
    · simp only [ne_eq, hend, not_false_eq_true, decide_true, Bool.true_and] at hstop
      cases hnode : instructionAt? (indexOffsets code) h.stop with
      | some n => exact ⟨n, rfl⟩
      | none => simp [hnode] at hstop
  have hnode : ∀ offset, g.node? offset = instructionAt? (indexOffsets code) offset := fun _ => by
    rw [node?, hnodes]
  simp only [CodeEdges.guard, hnode h.start, hstart, hstop, hnode h.target, hentry]
  by_cases hzero : h.catchIndex = 0
  · simp [hzero, pure, Except.pure]
  · simp only [ne_eq, hzero, not_false_eq_true, if_true, bind_eq_ok, mapError_eq_ok] at hcaught
    obtain ⟨name, hname, -⟩ := hcaught
    simp [hzero, hname, bind, Except.bind, mapError_ok, pure, Except.pure]

/-- Laid out code has all its edges under an exception table whose entries pass their check. -/
theorem CodeEdges.exists_build (hlaid : Laid code) (htable : ∀ h i, table[i]? = some h →
      checkHandler pool (indexOffsets code) (codeEnd code) h i = .ok ()) :
    ∃ g, CodeEdges.build code table pool = .ok g := by
  have hempty : code.isEmpty = false :=
    Array.isEmpty_eq_false_iff.2 (Array.size_pos_iff.1 hlaid.nonempty)
  let g : CodeEdges := { code, nodes := indexOffsets code }
  have hsuccessor : ∀ ins ∈ code.toList, ∃ ns, g.staticSuccessors ins = .ok ns :=
    fun ins hins => staticSuccessors_ok rfl hlaid (Array.mem_toList_iff.1 hins)
  have hguard : ∀ entry ∈ table.zipIdx, ∃ guard, g.guard pool entry.1 entry.2 = .ok guard := by
    rintro ⟨handler, i⟩ hmem
    exact guard_ok rfl rfl (htable handler i (List.mem_zipIdx_iff_getElem?.1 hmem))
  obtain ⟨successors, hsuccessors, -⟩ := exists_mapM_eq_ok hsuccessor
  obtain ⟨guards, hguards, -⟩ := exists_mapM_eq_ok hguard
  simp only [g] at hsuccessors hguards
  simp only [build, hempty, Array.mapM_eq_mapM_toList, hsuccessors, bind, Except.bind, hguards]
  exact ⟨_, rfl⟩

theorem CodeEdges.partition_rejects (hbuilt : g.Built code table pool) (hlaid : Laid code)
    (strict : Bool) :
    FailsOnly (fun e => ∃ fault, e = Failure.rejected fault) (g.partition strict) := by
  have hshaped : ∀ {α : Type} (r : Except SubroutineFault α),
      FailsOnly (fun e => ∃ fault, e = Failure.rejected fault)
        (r.mapError fun e => Failure.rejected (.subroutine e)) := fun r =>
    .mapError fun e _ => ⟨_, rfl⟩
  have hflow : ∀ n, n < g.size → ∃ ns, g.regionSuccessors n = .ok ns := by
    intro n hn
    unfold regionSuccessors
    split
    · next hjsr =>
      have hends : (g.instruction n).op.endsFlow = false := by
        simp only [Opcode.isJsr, decide_eq_true_eq] at hjsr
        simp [Opcode.endsFlow, hjsr]
      obtain ⟨-, hnext⟩ := hbuilt.next_eq_of_not_endsFlow hlaid hn hends
      simp [hnext, bind, Except.bind, pure, Except.pure]
    · exact ⟨_, rfl⟩
  unfold partition
  refine .bind ?_ fun parts _ => .bind (hshaped _) fun _ _ => .pure _
  unfold divide
  refine .bind (hshaped _) fun regions _ => .bind ?_ fun flow _ => .bind (hshaped _) fun r _ =>
    .bind (hshaped _) fun finished _ => ?_
  · obtain ⟨flow, hok, -⟩ := exists_mapM_eq_ok (l := List.range g.size)
      fun n hn => hflow n (List.mem_range.1 hn)
    simp only [Array.mapM_eq_mapM_toList, Array.toList_range, hok]
    exact .ok _
  · split
    · split
      · exact .bind (hshaped _) fun _ _ => .pure _
      · exact .pure _
    · exact .pure _

/-- Only the shape of its subroutines can keep such code from having a graph. -/
theorem FlowGraph.build_rejects (hlaid : Laid code) (htable : ∀ h i, table[i]? = some h →
      checkHandler pool (indexOffsets code) (codeEnd code) h i = .ok ()) (strict : Bool) :
    FailsOnly (fun e => ∃ fault, e = Failure.rejected fault)
      (FlowGraph.build code table pool strict) := by
  obtain ⟨edges, hedges⟩ := CodeEdges.exists_build hlaid htable
  rw [build, hedges]
  refine .bind (.ok edges) fun _ hsame => ?_
  cases hsame
  refine .bind ?_ fun parts _ => .pure _
  exact CodeEdges.partition_rejects (CodeEdges.built_of_build hedges) hlaid strict

end Graph

end Bytecode
