import Bytecode.Proofs.ErrorSources
import Bytecode.Proofs.Limits

/-!
The classes that frames name.

Values come into a frame with the arguments and the receiver, from operands and from merges. So as
long as a property of names goes over to common superclasses, what a frame names has it whenever
what the method names has it.

Main statement: `over_invariant`, for all frames of data flow.
-/
namespace Bytecode

open ValueType

variable {N : String → Prop}

theorem over_core {c : MethodContext} (hc : c.Over N) {name : String} (hname : name ∈ coreClasses) :
    (reference name).Over N := by
  have hclass : ∀ name ∈ coreClasses, namesArray name = false := by decide
  exact (over_class (hclass name hname)).2 (hc.core name hname)

/-! ### Merges -/

/-- The property `N` goes over to common superclasses. -/
def Hierarchy.JoinsOver (h : Hierarchy) (N : String → Prop) : Prop :=
  ∀ a b d, N a → N b → h.commonSuperclass a b = .ok d → (reference d).Over N

namespace Hierarchy

variable {h : Hierarchy} {a b d : ValueType}

theorem joinClasses_over (hjoin : h.JoinsOver N) (hroot : (reference objectClass).Over N)
    (ha : N a.name) (hb : N b.name) (hd : h.joinClasses a b = .ok d) : d.Over N := by
  unfold joinClasses at hd
  obtain ⟨mine, -, hd⟩ := bind_eq_ok.1 hd
  split at hd
  · cases hd
    exact hroot
  · obtain ⟨theirs, -, hd⟩ := bind_eq_ok.1 hd
    split at hd
    · cases hd
      exact hroot
    · obtain ⟨common, hcommon, hd⟩ := bind_eq_ok.1 hd
      cases hd
      exact hjoin _ _ _ ha hb (mapError_eq_ok.1 hcommon)

theorem join_over (hjoin : h.JoinsOver N) (hroot : (reference objectClass).Over N)
    (ha : a.Over N) (hb : b.Over N) (hra : a.isReference = true) (hrb : b.isReference = true)
    (hd : h.join a b = .ok d) : d.Over N := by
  fun_induction join h a b generalizing d with
  | case1 =>
    cases hd
    exact ha
  | case2 =>
    cases hd
    exact hb
  | case3 =>
    cases hd
    exact ha
  | case4 a b _ _ _ _ ca cb hca hcb hboth _ ih =>
    rw [Bool.and_eq_true] at hboth
    obtain ⟨component, hcomponent, rfl⟩ := map_eq_ok.1 hd
    exact (ih (ha.component hca) (hb.component hcb) (isReference_ofFieldType hboth.1)
      (isReference_ofFieldType hboth.2) hcomponent).arrayOf
  | case5 =>
    cases hd
    exact hroot
  | case6 =>
    cases hd
    exact hroot
  | case7 a b _ hna hnb hclass =>
    rw [Bool.or_eq_true, not_or] at hclass
    exact joinClasses_over hjoin hroot (ha.of_isClass (isClass_of_isReference hra hna hclass.1))
      (hb.of_isClass (isClass_of_isReference hrb hnb hclass.2)) hd

theorem mergeStackEntry_over (hjoin : h.JoinsOver N) (hroot : (reference objectClass).Over N)
    {i : Nat} (ha : a.Over N) (hb : b.Over N) (hd : h.mergeStackEntry i a b = .ok d) :
    d.Over N := by
  rcases Frame.mergeStackEntry_ok hd with ⟨-, rfl⟩ | ⟨hra, hrb, hd⟩
  · exact ha
  · exact join_over hjoin hroot ha hb hra hrb hd

theorem mergeLocal_over (hjoin : h.JoinsOver N) (hroot : (reference objectClass).Over N)
    {i : Nat} (ha : a.Over N) (hb : b.Over N) (hd : h.mergeLocal i a b = .ok d) : d.Over N := by
  rcases Frame.mergeLocal_ok hd with ⟨-, rfl⟩ | rfl | ⟨-, rfl⟩ | ⟨hra, hrb, hd⟩
  · exact ha
  · exact over_of_named?_eq_none rfl
  · exact hb
  · refine join_over hjoin hroot ?_ hb hra hrb hd
    unfold Frame.asInitialized
    split
    · next hmarker => exact ha.initialized hmarker
    · exact ha

end Hierarchy

theorem Frame.Over.merge {h : Hierarchy} {f g m : Frame} (hjoin : h.JoinsOver N)
    (hroot : (reference objectClass).Over N) (hf : f.Over N) (hg : g.Over N)
    {changed : Bool} (hm : merge h f g = (m, .ok changed)) : m.Over N := by
  obtain ⟨hstack, hlocals⟩ := merge_fst (P := fun a d => a.Over N → d.Over N)
    (R := fun a d => a.Over N → d.Over N) hm
    (by
      rintro a d (rfl | ⟨i, b, hb, hd⟩) ha
      · exact ha
      · exact Hierarchy.mergeStackEntry_over hjoin hroot ha (hg b hb) hd)
    (by
      rintro a d (rfl | ⟨i, b, hb, hd⟩) ha
      · exact ha
      · exact Hierarchy.mergeLocal_over hjoin hroot ha (hg b hb) hd)
  rintro v (hv | hv)
  · obtain ⟨a, ha, hav⟩ := exists_mem_of_forall₂ hstack hv
    exact hav (hf a (.inl ha))
  · obtain ⟨a, ha, hav⟩ := exists_mem_of_forall₂ hlocals (Array.mem_toList_iff.2 hv)
    exact hav (hf a (.inr (Array.mem_toList_iff.1 ha)))

/-! ### Instructions -/

theorem over_elementDescriptor (code : UInt8) :
    (reference ("[" ++ elementDescriptor code)).Over N := by
  refine over_of_named?_eq_none ?_
  unfold elementDescriptor elementDescriptor?
  split <;> decide

namespace MethodContext

variable {c : MethodContext} {g : FlowGraph} {code : Array Instruction} {f out : Frame}
  {ins : Instruction}

theorem constantType_over (hc : c.Over N) {t : ValueType} (ht : c.constantType ins = .ok t) :
    t.Over N := by
  unfold constantType at ht
  split at ht <;> cases ht
  · exact over_of_named?_eq_none rfl
  · exact over_of_named?_eq_none rfl
  · exact over_of_named?_eq_none rfl
  · exact over_of_named?_eq_none rfl
  all_goals exact over_core hc (by decide)

/-- What an instruction leaves names what the frame before or the method names. -/
theorem run_over (hc : c.Over N) (hf : f.Over N) (hchecked : c.Checked ins)
    (hcheck : c.check ins f = .ok ()) (h : c.run ins f = .ok out) : out.Over N := by
  have hsimple : ∀ v : ValueType, v.isUninitialized = false → (∀ name, v ≠ .reference name) →
      v.Over N := by
    intro v hunmarked hobject
    cases v with
    | reference name => exact absurd rfl (hobject name)
    | uninitialized | uninitializedThis => cases hunmarked
    | _ => exact over_of_named?_eq_none rfl
  intro v hv
  cases (effect_run h).origin hv with
  | kept has => exact hf v has
  | simple unmarked object => exact hsimple v unmarked object
  | initialized action operand constructor receiver =>
    exact (hf _ (.inl (List.mem_of_getElem? receiver))).initialized
      (isUninitialized_of_check hchecked hcheck action operand constructor receiver)
  | made made =>
    cases made with
    | simple plain object => exact hsimple v (isUninitialized_of_isPlain plain) object
    | constant constant => exact constantType_over hc constant
    | component onStack component => exact (hf _ (.inl onStack)).component component
    | field _ operand => exact (hc.fieldOperand operand).1
    | result _ operand returned => exact (hc.methodOperand operand).1.result _ returned
    | named _ operand type => exact hc.classOperand operand type
    | arrayOf _ operand type => exact (hc.classOperand operand type).arrayOf
    | elements => exact over_elementDescriptor _
    | nullPointer => exact over_core hc (by decide)
  | allocated action operand =>
    obtain ⟨name, element, hname, hclass⟩ :=
      hchecked.className (by simp [action, Action.namesClass])
    cases operand.symm.trans hname
    have hover := hc.classOperand hname hclass
    rw [(classType_eq_ok hclass).1] at hover
    exact hover

/-! ### Data flow -/

theorem initialFrame_over (hc : c.Over N) (h : c.initialFrame = .ok f) : f.Over N := by
  intro v hv
  have hinitial := initial_of_initialFrame h
  rcases hinitial.locals v (hinitial.has hv) with rfl | rfl | ⟨arg, harg, rfl⟩
  · exact over_of_named?_eq_none rfl
  · split
    · exact hc.receiver
    · exact hc.receiver
  · exact hc.type.args arg harg

theorem caughtType_cases (hg : g.toCodeEdges.Built code c.method.handlers c.pool) {guard : Guard}
    (hguard : guard ∈ g.guards) : guard.caughtType = .reference throwableClass ∨
      ∃ handler ∈ c.method.handlers, ∃ name, name ≠ "" ∧
        c.pool.className handler.catchIndex = .ok name ∧ guard.caughtType = .reference name := by
  obtain ⟨handler, hmem, i, hbuilt⟩ := hg.guards guard hguard
  obtain ⟨-, -, -, hcaught⟩ := CodeEdges.guard_spec hbuilt
  unfold Guard.caughtType
  cases hname : guard.caught with
  | none => exact .inl rfl
  | some name =>
    simp only [hname, reduceCtorEq, Option.getD_some, ne_eq, Option.some.injEq] at hcaught
    split at hcaught
    · cases hcaught
    · exact .inr ⟨handler, hmem, name, hcaught.2, hcaught.1, rfl⟩

theorem caughtType_over (hc : c.Over N) (hg : g.toCodeEdges.Built code c.method.handlers c.pool)
    {guard : Guard} (hguard : guard ∈ g.guards) : guard.caughtType.Over N := by
  rcases caughtType_cases hg hguard with heq | ⟨handler, -, name, hne, hname, heq⟩
  · rw [heq]
    exact over_core hc (by decide)
  · rw [heq]
    exact hc.pool.classes hname hne

/-- All frames of data flow name what the method names, and common superclasses of that. -/
theorem over_invariant (h : Ready c g code) (hc : c.Over N) (hjoin : c.hierarchy.JoinsOver N) :
    FrameInvariant c g (Frame.Over N) where
  initial := initialFrame_over hc
  merge hf hf' hmerge := hf.merge hjoin (over_core hc (by decide)) hf' hmerge
  run hn hf hcheck hrun := run_over hc hf (h.checked hn) hcheck hrun
  handle := by
    intro guard out entry f hguard hout hf
    simp only [handlerFrame, bind_eq_ok, pure_eq_ok, Stack.push_eq_ok] at hf
    obtain ⟨stack, ⟨-, -, rfl⟩, rfl⟩ := hf
    rintro v (hv | hv)
    · rw [List.mem_singleton.1 hv]
      exact caughtType_over hc h.built hguard
    · exact hout v (.inr hv)

end MethodContext

end Bytecode
