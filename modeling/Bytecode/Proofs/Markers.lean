import Bytecode.Proofs.Covering
import Bytecode.Proofs.StoredFrames

/-!
Where values come from, and the markers of uninitialized objects among them.

An instruction hands values on, or it takes others out of them, or it has them from an operand.
Merges, instructions and handlers hand markers on and make none, except that an allocation makes one
with its own offset. So each lemma here goes backwards: a frame has a marker, and so had the frame
before.

Main statements: `Effect.origin`, and for markers `Has.of_merge`, `Has.of_covers`, `Has.of_effect`
and `Has.of_handlerFrame`.
-/
namespace Bytecode

namespace ValueType

variable {v : ValueType}

theorem isReference_of_isUninitialized (hv : v.isUninitialized = true) : v.isReference = false := by
  cases v <;> simp_all [isUninitialized, isReference]

theorem isUninitialized_of_isPlain (hv : v.isPlain = true) : v.isUninitialized = false := by
  cases v <;> first | rfl | cases hv

end ValueType

open ValueType

namespace Frame

variable {c : MethodContext} {h : Hierarchy} {f g m : Frame} {ins : Instruction} {v : ValueType}

/-! ### Merges -/

theorem eq_of_mergeStackEntry {i : Nat} {a b d : ValueType}
    (hd : h.mergeStackEntry i a b = .ok d) (hmarker : d.isUninitialized = true) :
    a = d ∧ b = d := by
  rcases mergeStackEntry_ok hd with ⟨rfl, rfl⟩ | ⟨ha, hb, hjoin⟩
  · exact ⟨rfl, rfl⟩
  · have href := (Hierarchy.isReference_join ha hb hjoin).1
    rw [isReference_of_isUninitialized hmarker] at href
    cases href

theorem eq_of_mergeLocal {i : Nat} {a b d : ValueType} (hd : h.mergeLocal i a b = .ok d)
    (hmarker : d.isUninitialized = true) : a = d ∧ b = d := by
  rcases mergeLocal_ok hd with ⟨rfl, rfl⟩ | rfl | ⟨he, rfl⟩ | ⟨ha, hb, hjoin⟩
  · exact ⟨rfl, rfl⟩
  · cases hmarker
  · unfold asInitialized at he
    split at he
    · rw [← he] at hmarker
      cases hmarker
    · exact ⟨he, rfl⟩
  · have href := (Hierarchy.isReference_join ha hb hjoin).1
    rw [isReference_of_isUninitialized hmarker] at href
    cases href

theorem mem_of_forall₂ {l l' : List ValueType}
    (hl : List.Forall₂ (fun a d => d.isUninitialized = true → a = d) l l')
    (hv : v.isUninitialized = true) (hmem : v ∈ l') : v ∈ l := by
  obtain ⟨a, ha, had⟩ := exists_mem_of_forall₂ hl hmem
  rwa [had hv] at ha

theorem Has.of_merge {changed : Bool} (hm : merge h f g = (m, .ok changed))
    (hv : v.isUninitialized = true) (hhas : m.Has v) : f.Has v ∧ g.Has v := by
  obtain ⟨⟨hfs, hgs⟩, ⟨hfl, hgl⟩, -⟩ := merge_eq_ok
    (P := fun a d => d.isUninitialized = true → a = d)
    (Q := fun b d => d.isUninitialized = true → b = d)
    (R := fun a d => d.isUninitialized = true → a = d)
    (S := fun b d => d.isUninitialized = true → b = d) hm
    (fun _ _ _ _ hd => ⟨fun hmarker => (eq_of_mergeStackEntry hd hmarker).1,
      fun hmarker => (eq_of_mergeStackEntry hd hmarker).2⟩)
    (fun _ _ _ _ hd => ⟨fun hmarker => (eq_of_mergeLocal hd hmarker).1,
      fun hmarker => (eq_of_mergeLocal hd hmarker).2⟩)
  rcases hhas with hmem | hmem
  · exact ⟨.inl (mem_of_forall₂ hfs hv hmem), .inl (mem_of_forall₂ hgs hv hmem)⟩
  · have hmem' := Array.mem_toList_iff.2 hmem
    exact ⟨.inr (Array.mem_toList_iff.1 (mem_of_forall₂ hfl hv hmem')),
      .inr (Array.mem_toList_iff.1 (mem_of_forall₂ hgl hv hmem'))⟩

theorem Has.of_covers (hm : m.Covers h f) (hv : v.isUninitialized = true) (hhas : m.Has v) :
    f.Has v := by
  have hne : ∀ {d : ValueType}, d.isUninitialized = true → ∀ name, d ≠ .reference name := by
    rintro d hd name rfl
    cases hd
  rcases hhas with hmem | hmem
  · refine .inl (mem_of_forall₂ (hm.stack.imp fun a d hbelow hd => ?_) hv hmem)
    exact hbelow.eq_of_not_reference (hne hd)
  · have hlocals := hm.locals.imp (S := fun a d => d.isUninitialized = true → a = d) ?_
    · exact .inr (Array.mem_toList_iff.1 (mem_of_forall₂ hlocals hv (Array.mem_toList_iff.2 hmem)))
    · rintro a d (rfl | hbelow | ⟨-, hbelow⟩) hd
      · cases hd
      · exact hbelow.eq_of_not_reference (hne hd)
      · exact absurd (hbelow.eq_of_not_reference (hne hd)).symm (hne hd _)

/-! ### Instructions and handlers -/

theorem Has.of_initializeObject {marker : ValueType} (hhas : (f.initializeObject marker).Has v) :
    v = marker.initialized ∨ f.Has v ∧ v ≠ marker := by
  have hstep : ∀ u, f.Has u → (if u = marker then marker.initialized else u) = v →
      v = marker.initialized ∨ f.Has v ∧ v ≠ marker := by
    rintro u hu rfl
    split
    · exact .inl rfl
    · next hne => exact .inr ⟨hu, hne⟩
  rcases hhas with hmem | hmem
  · obtain ⟨u, humem, hu⟩ := List.mem_map.1 hmem
    exact hstep u (.inl humem) hu
  · obtain ⟨u, humem, hu⟩ := Array.mem_map.1 hmem
    exact hstep u (.inr humem) hu

end Frame

/-- Where an instruction has a value from that it leaves in a frame. -/
inductive Origin (c : MethodContext) (ins : Instruction) (f : Frame) : ValueType → Prop
  | kept {v : ValueType} (has : f.Has v) : Origin c ins f v
  | made {v : ValueType} (made : Made c ins f v) : Origin c ins f v
  | simple {v : ValueType} (unmarked : v.isUninitialized = false)
      (object : ∀ name, v ≠ .reference name) : Origin c ins f v
  | initialized {kind : InvokeKind} {ref : MemberRef} {type : MethodType} {marker : ValueType}
      (action : ins.action = .invoke kind) (operand : c.methodOperand ins kind = .ok (ref, type))
      (constructor : ref.name = constructorName)
      (receiver : f.stack.values[type.args.length]? = some marker) :
      Origin c ins f marker.initialized
  | allocated {name : String} (action : ins.action = .allocate)
      (operand : c.classOperand ins = .ok name) : Origin c ins f (.uninitialized name ins.pos)

theorem Effect.origin {c : MethodContext} {ins : Instruction} {f g : Frame} {v : ValueType}
    (he : Effect c ins f g) (hhas : g.Has v) : Origin c ins f v := by
  cases he with
  | values source =>
    rcases hhas with hmem | hmem
    · rcases source v hmem with hold | hmade | ⟨_, _, -, hload⟩ | ⟨hact, name, hname, rfl⟩
      · exact .kept (.inl hold)
      · exact .made hmade
      · exact .kept (.inr (Array.mem_of_getElem? hload))
      · exact .allocated hact hname
    · exact .kept (.inr hmem)
  | call =>
    rcases hhas with hmem | hmem
    · rcases List.mem_cons.1 hmem with rfl | hmem
      · exact .simple rfl (by simp)
      · exact .kept (.inl hmem)
    · exact .kept (.inr hmem)
  | store _ top =>
    rcases hhas with hmem | hmem
    · exact .kept (.inl (top ▸ List.mem_cons_of_mem _ hmem))
    · rcases Frame.mem_storedLocals hmem with hmem | rfl | rfl
      · exact .kept (.inr hmem)
      · exact .kept (.inl (top ▸ List.mem_cons_self))
      · exact .simple rfl (by simp)
  | @construct _ _ _ marker vs action operand constructor receiver source =>
    have hinitialized : (f.initializeObject marker).Has v → Origin c ins f v := by
      intro hhas
      rcases hhas.of_initializeObject with rfl | ⟨hold, -⟩
      · exact .initialized action operand constructor receiver
      · exact .kept hold
    rcases hhas with hmem | hmem
    · rcases source v hmem with hmem | hmade
      · exact hinitialized (.inl hmem)
      · exact .made hmade
    · exact hinitialized (.inr hmem)

namespace Frame

variable {c : MethodContext} {h : Hierarchy} {f g : Frame} {ins : Instruction} {v : ValueType}

/-- A marker after an instruction was there before, or is that of the object just allocated. -/
theorem Has.of_effect (he : Effect c ins f g) (hv : v.isUninitialized = true) (hhas : g.Has v) :
    f.Has v ∨ ins.action = .allocate ∧ ∃ name, v = .uninitialized name ins.pos := by
  cases he.origin hhas with
  | kept has => exact .inl has
  | made made => cases hv.symm.trans (isUninitialized_of_isPlain made.isPlain)
  | simple unmarked => cases hv.symm.trans unmarked
  | initialized => cases hv
  | allocated action => exact .inr ⟨action, _, rfl⟩

theorem Has.of_handlerFrame {guard : Guard} {out : Frame} {entry : Option Frame}
    (hf : MethodContext.handlerFrame guard out entry = .ok f) (hv : v.isUninitialized = true)
    (hhas : f.Has v) : out.Has v := by
  simp only [MethodContext.handlerFrame, bind_eq_ok, pure_eq_ok, Stack.push_eq_ok] at hf
  obtain ⟨stack, ⟨-, -, rfl⟩, rfl⟩ := hf
  rcases hhas with hmem | hmem
  · -- Only what was caught is on the stack.
    rw [List.mem_singleton.1 hmem] at hv
    cases hv
  · exact .inr hmem

end Frame

/-! ### The initial frame -/

namespace MethodContext

variable {c : MethodContext} {f : Frame} {v : ValueType}

theorem Initial.has (hf : Initial c f) (hhas : f.Has v) : v ∈ f.locals := by
  refine hhas.resolve_left ?_
  rw [hf.values]
  exact List.not_mem_nil

/-- The only marker that a method starts with is that of its receiver. -/
theorem has_initialFrame (hf : c.initialFrame = .ok f) (hv : v.isUninitialized = true)
    (hhas : f.Has v) : v = .uninitializedThis c.owner.name ∧ f.thisUninitialized = true := by
  have hinitial := initial_of_initialFrame hf
  rcases hinitial.locals v (hinitial.has hhas) with rfl | rfl | ⟨arg, -, rfl⟩
  · cases hv
  · split at hv
    · next hstarts => exact ⟨if_pos hstarts, hinitial.flag.trans hstarts⟩
    · cases hv
  · cases hv.symm.trans (isUninitialized_of_isPlain (isPlain_ofFieldType arg))

end MethodContext

end Bytecode
