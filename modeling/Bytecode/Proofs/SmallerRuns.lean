import Bytecode.Proofs.BlurredFrames

/-!
Runs on smaller frames: where types name classes, an instruction other than an allocation leaves
declared values of declared values, and over those to stand for a frame is no more than to blur it.

Main statements: `declared_run` and `StandsFor.of_blurred`.
-/
namespace Bytecode

open ValueType

theorem Hierarchy.Sound.classesOnly {h : Hierarchy} (hs : h.Sound) : h.ClassesOnly := by
  intro a b ha hab
  by_cases heq : a = b
  · exact heq ▸ ha
  · exact (hs.above hab heq).1.namesArray

/-! ### Types that a method brings in -/

namespace MethodContext

variable {c : MethodContext} {ins : Instruction} {f g out : Frame}

/-- The declared type that an instruction takes from an operand for a value that it leaves. -/
def declares (c : MethodContext) (ins : Instruction) : Option FieldType :=
  match ins.action with
  | .field _ => (c.fieldOperand ins).toOption.map (·.2)
  | .invoke kind => (c.methodOperand ins kind).toOption.bind (·.2.result)
  | .newRefArray | .newMultiArray | .checkCast =>
    (c.classOperand ins).toOption.bind fun name => (FieldType.parseClass name).toOption
  | _ => none

/-- The types of the values that a method meets name classes: those of the receiver and the
arguments, those that operands declare, and those that handlers catch. -/
structure NamesClasses (c : MethodContext) (code : Array Instruction) : Prop where
  owner : IsClassName c.owner.name
  arguments : ∀ arg ∈ c.type.args, arg.Named
  operands : ∀ ins ∈ code, ∀ type ∈ c.declares ins, type.Named
  handlers : ∀ handler ∈ c.method.handlers,
    ∀ name ∈ (c.pool.className handler.catchIndex).toOption,
      name = "" ∨ ∃ type ∈ (FieldType.parseClass name).toOption, type.Named

instance (c : MethodContext) (code : Array Instruction) : Decidable (NamesClasses c code) :=
  decidable_of_iff (IsClassName c.owner.name ∧ (∀ arg ∈ c.type.args, arg.Named) ∧
      (∀ ins ∈ code, ∀ type ∈ c.declares ins, type.Named) ∧ ∀ handler ∈ c.method.handlers,
        ∀ name ∈ (c.pool.className handler.catchIndex).toOption,
          name = "" ∨ ∃ type ∈ (FieldType.parseClass name).toOption, type.Named)
    ⟨fun ⟨h₁, h₂, h₃, h₄⟩ => ⟨h₁, h₂, h₃, h₄⟩, fun ⟨h₁, h₂, h₃, h₄⟩ => ⟨h₁, h₂, h₃, h₄⟩⟩

variable {v : ValueType} {access : FieldAccess} {ref : MemberRef} {kind : InvokeKind}

theorem exists_of_classOperand {name : String}
    (hact : ins.action = .newRefArray ∨ ins.action = .newMultiArray ∨ ins.action = .checkCast)
    (hnamed : ∀ type ∈ c.declares ins, type.Named) (hname : c.classOperand ins = .ok name)
    (hv : classType ins name = .ok v) :
    ∃ type : FieldType, type.IsObject ∧ type.dims ≤ 255 ∧ ofFieldType type = v := by
  obtain ⟨type, htype, rfl⟩ := map_eq_ok.1 (mapError_eq_ok.1 hv)
  have hdeclares : type ∈ c.declares ins := by
    rcases hact with hact | hact | hact <;>
      simp [declares, hact, hname, htype, Except.toOption]
  have hdims := FieldType.dims_le_of_parseClass htype
  exact ⟨type, ⟨FieldType.isReference_of_parseClass htype, hnamed type hdeclares,
    Nat.le_succ_of_le hdims⟩, hdims, rfl⟩

theorem declared_of_className {name : String} (h : IsClassName name) : (reference name).Declared :=
  (FieldType.IsObject.of_class h).declared

theorem declared_constantType (h : c.constantType ins = .ok v) : v.Declared := by
  unfold constantType at h
  split at h <;> cases h <;>
    first
    | exact declared_of_className (by decide)
    | exact declared_of_ne rfl (by simp)

theorem declared_fieldOperand {type : FieldType} (hact : ins.action = .field access)
    (hnamed : ∀ type ∈ c.declares ins, type.Named) (h : c.fieldOperand ins = .ok (ref, type)) :
    (ofFieldType type).Declared := by
  have hdeclares : type ∈ c.declares ins := by
    simp [declares, hact, h, Except.toOption]
  simp only [fieldOperand, bind_eq_ok, mapError_eq_ok, pure_eq_ok, Prod.mk.injEq] at h
  obtain ⟨ref', -, type', htype, rfl, rfl⟩ := h
  exact FieldType.Named.declared (hnamed _ hdeclares)
    (Nat.le_succ_of_le (FieldType.readable_of_parse htype).2)

theorem declared_methodOperand {type : MethodType} (hact : ins.action = .invoke kind)
    (hnamed : ∀ type ∈ c.declares ins, type.Named)
    (h : c.methodOperand ins kind = .ok (ref, type)) :
    ∀ result ∈ type.result, (ofFieldType result).Declared := by
  intro result hresult
  have hdeclares : result ∈ c.declares ins := by
    simpa [declares, hact, h, Except.toOption] using hresult
  simp only [methodOperand, bind_eq_ok, mapError_eq_ok, pure_eq_ok, Prod.mk.injEq] at h
  obtain ⟨ref', -, type', htype, rfl, rfl⟩ := h
  exact FieldType.Named.declared (hnamed _ hdeclares)
    (Nat.le_succ_of_le ((MethodType.dims_le_of_parse htype).2 result hresult))

theorem exists_of_elementDescriptor? {code : UInt8} {desc : String}
    (h : elementDescriptor? code = some desc) :
    ∃ element : BaseType, element.className? = none ∧ element.descriptor = desc := by
  unfold elementDescriptor? at h
  split at h <;> cases h
  · exact ⟨.boolean, rfl, rfl⟩
  · exact ⟨.char, rfl, rfl⟩
  · exact ⟨.float, rfl, rfl⟩
  · exact ⟨.double, rfl, rfl⟩
  · exact ⟨.byte, rfl, rfl⟩
  · exact ⟨.short, rfl, rfl⟩
  · exact ⟨.int, rfl, rfl⟩
  · exact ⟨.long, rfl, rfl⟩

theorem declared_newArray (hchecked : c.Checked ins) (hact : ins.action = .newArray) :
    (reference ("[" ++ elementDescriptor ins.elementCode)).Declared := by
  simp only [Checked, checkOperands, hact, ite_error_eq_ok, and_true, Option.isNone_iff_eq_none,
    ← ne_eq, Option.ne_none_iff_exists'] at hchecked
  obtain ⟨desc, hdesc⟩ := hchecked
  obtain ⟨element, hnamed, rfl⟩ := exists_of_elementDescriptor? hdesc
  have hvalue : reference ("[" ++ elementDescriptor ins.elementCode) =
      ofFieldType (FieldType.array ⟨element, 0⟩) := by
    rw [ofFieldType_array, elementDescriptor, hdesc]
    simp [FieldType.descriptor]
  rw [hvalue]
  exact FieldType.Named.declared (fun name hname => by simp [hnamed] at hname) (by simp)

/-! ### Runs -/

/-- An instruction other than an allocation leaves declared values of declared values. -/
theorem declared_run (hs : c.hierarchy.Sound) (hf : f.Declared) (hchecked : c.Checked ins)
    (hnamed : ∀ type ∈ c.declares ins, type.Named) (hnew : ins.action ≠ .allocate)
    (hcheck : c.check ins f = .ok ()) (hrun : c.run ins f = .ok out) : out.Declared := by
  have hhas : ∀ v, f.Has v → v.Declared := fun v hv => hv.elim (hf.stack v) (hf.locals v)
  have hall : ∀ v, out.Has v → v.Declared := by
    intro v hv
    cases (effect_run hrun).origin hv with
    | kept has => exact hhas v has
    | simple unmarked object => exact declared_of_ne unmarked object
    | initialized action operand constructor receiver =>
      have hmarked := isUninitialized_of_check hchecked hcheck action operand constructor receiver
      rw [(hf.stack _ (List.mem_of_getElem? receiver)).initialized] at hmarked
      cases hmarked
    | allocated action => exact absurd action hnew
    | made made =>
      cases made with
      | simple plain object => exact declared_of_ne (isUninitialized_of_isPlain plain) object
      | constant constant => exact declared_constantType constant
      | component onStack component =>
        rcases (Hierarchy.Below.refl _).component? hs (hf.stack _ onStack) component with
          rfl | ⟨s, hs, hdeclared, -⟩
        · cases component
        · cases component.symm.trans hs
          exact hdeclared
      | field action operand => exact declared_fieldOperand action hnamed operand
      | result action operand returned =>
        exact declared_methodOperand action hnamed operand _ returned
      | named action operand type =>
        obtain ⟨s, hobject, -, rfl⟩ := exists_of_classOperand (.inr action) hnamed operand type
        exact hobject.declared
      | arrayOf action operand type =>
        obtain ⟨s, hobject, hdims, rfl⟩ := exists_of_classOperand (.inl action) hnamed operand type
        rw [arrayOf_ofFieldType hobject]
        exact FieldType.Named.declared hobject.named (Nat.succ_le_succ hdims)
      | elements action => exact declared_newArray hchecked action
      | nullPointer => exact declared_of_className (by decide)
  refine ⟨fun v hv => hall v (.inl hv), fun v hv => hall v (.inr hv), ?_⟩
  rcases Frame.ThisMarked.flag_of_effect (effect_run hrun) with hflag | ⟨hflag, -⟩
  · exact hflag.trans hf.thisUninitialized
  · exact hflag

namespace StandsFor

theorem blurred (h : c.StandsFor g f) (hfits : c.Fits g) : g.Blurred c.hierarchy f where
  stack := Frame.forall₂_imp_of_mem h.covers.stack.flip fun _ hd _ hbelow =>
    .of_below hbelow (ne_of_mem_of_not_mem hd hfits.values)
  locals := h.covers.locals.flip.imp fun _ _ => Hierarchy.blurs_iff.2
  max := h.max

/-- A frame that blurs declared values is above them. -/
theorem of_blurred (h : g.Blurred c.hierarchy f) (hf : f.Declared) : c.StandsFor g f where
  covers :=
    { stack := Frame.forall₂_imp_of_mem h.stack.flip fun a ha d hblurs => by
        refine (Hierarchy.Blurs.cases hblurs).resolve_right fun hmarked => ?_
        rw [(hf.stack a ha).initialized] at hmarked
        cases hmarked.1
      locals := h.locals.flip.imp fun _ _ => Hierarchy.blurs_iff.1
      thisUninitialized := by simp [hf.thisUninitialized] }
  declared := hf
  max := h.max

end StandsFor

end MethodContext
end Bytecode
