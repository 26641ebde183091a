import Bytecode.Proofs.FixedPoint
import Bytecode.Proofs.Heights
import Bytecode.Proofs.RelatedFrames

/-!
Stored frames that say less than a run.

A merge may take an object that waits for its constructor call for an initialized one. So what data
flow has stored need not be above what a run along one path has, but it is above what that becomes
once the objects are initialized.

Main statements: `Blurred.run` for instructions and `Blurred.of_covers` for merges.
-/
namespace Bytecode

open ValueType Hierarchy MethodContext

/-! ### Values -/

namespace ValueType

theorem ofFieldType_of_component?_arrayOf {name : String} {c : FieldType}
    (h : (reference name).arrayOf.component? = some c) : ofFieldType c = .reference name := by
  rw [arrayOf_reference] at h
  have harray := eq_bracket_of_component h
  have hdescriptor : (reference name).descriptor = c.descriptor := by
    refine String.toList_inj.1 ?_
    simpa [arrayName, String.toList_append] using congrArg String.toList harray
  obtain ⟨-, hreadable, hdims⟩ := ofName?_of_component h
  have hparse := FieldType.parse_descriptor hreadable hdims
  rw [← hdescriptor, descriptor] at hparse
  by_cases hname : namesArray name = true
  · obtain ⟨desc, rfl⟩ := exists_of_namesArray hname
    rw [descriptor, if_pos (show (reference _).isArray = true from hname)] at hdescriptor
    rw [if_pos (show (reference _).isArray = true from hname)] at hparse
    obtain ⟨s, rfl, -⟩ := FieldType.parse_of_parse_bracket hparse
    rw [ofFieldType_array, ← FieldType.descriptor_array]
    exact congrArg reference hdescriptor.symm
  · rw [if_neg (show ¬(reference _).isArray = true from hname)] at hparse
    rw [FieldType.eq_of_parse_class hparse]
    rfl

end ValueType

namespace Hierarchy

variable {h : Hierarchy} {a d : ValueType}

/-- No class is below one that has the name of an array. -/
def ClassesOnly (h : Hierarchy) : Prop :=
  ∀ a b, namesArray a = false → h.isSubclassOf a b = .ok true → namesArray b = false

theorem Below.of_component? (hclasses : h.ClassesOnly) (had : Below h a d) {cd : FieldType}
    (hcd : d.component? = some cd) (href : cd.isReference = true) :
    a = .null ∨ ∃ ca, a.component? = some ca ∧ ca.isReference = true ∧
      Below h (ofFieldType ca) (ofFieldType cd) := by
  induction had generalizing cd with
  | refl => exact .inr ⟨cd, hcd, href, .refl _⟩
  | null => exact .inl rfl
  | root =>
    obtain ⟨name, hname, harray⟩ := component?_eq_some hcd
    cases hname
    rw [isClassName_objectClass.namesArray] at harray
    cases harray
  | subclass isClass sub =>
    obtain ⟨name, hname, harray⟩ := component?_eq_some hcd
    cases hname
    rw [hclasses _ _ isClass sub] at harray
    cases harray
  | @array a b component isArray isReference below =>
    obtain ⟨name, hname⟩ := ofFieldType_of_isReference isReference
    obtain ⟨b', rfl⟩ : ∃ name, b = .reference name := by
      rcases below.eq_or_reference with heq | ⟨-, hb⟩
      · exact ⟨name, heq.symm.trans hname⟩
      · exact hb
    rw [ofFieldType_of_component?_arrayOf hcd]
    exact .inr ⟨component, isArray, isReference, below⟩
  | trans _ _ ih₁ ih₂ =>
    rcases ih₂ hcd href with rfl | ⟨cb, hcb, hbref, hbelow⟩
    · next hab _ => exact .inl (hab.eq_of_not_reference (by simp))
    · rcases ih₁ hcb hbref with hnull | ⟨ca, hca, haref, hbelow'⟩
      · exact .inl hnull
      · exact .inr ⟨ca, hca, haref, hbelow'.trans hbelow⟩

/-- A usable value of a stored frame says no more than a value of a run: it is above the other, or
above what the other becomes once it is initialized. -/
def Blurs (h : Hierarchy) (d a : ValueType) : Prop :=
  d ≠ .unknown ∧ h.LocalBelow a d

theorem Blurs.cases (hda : h.Blurs d a) :
    h.Below a d ∨ (a.isUninitialized = true ∧ h.Below a.initialized d) :=
  hda.2.resolve_left hda.1

theorem Blurs.of_below (had : h.Below a d) (hd : d ≠ .unknown) : h.Blurs d a :=
  ⟨hd, .inr (.inl had)⟩

theorem blurs_iff : d = .unknown ∨ h.Blurs d a ↔ h.LocalBelow a d := by
  constructor
  · rintro (rfl | hda)
    · exact .inl rfl
    · exact hda.2
  · intro had
    by_cases hd : d = .unknown
    · exact .inl hd
    · exact .inr ⟨hd, had⟩

/-- A marker in a stored frame says all there is to say. -/
theorem Blurs.eq_of_isUninitialized (hda : h.Blurs d a) (hd : d.isUninitialized = true) : a = d := by
  have hne : ∀ name, d ≠ .reference name := by
    rintro name rfl
    cases hd
  rcases hda.cases with had | ⟨-, had⟩
  · exact had.eq_of_not_reference hne
  · exact absurd (had.eq_of_not_reference hne).symm (hne _)

theorem uniform_blurs (h : Hierarchy) : Uniform h.Blurs where
  size := by
    intro d a hda
    rcases hda.cases with had | ⟨hmarker, had⟩
    · exact had.size
    · rw [← had.size]
      cases a <;> first | rfl | cases hmarker
  known := by
    rintro d a hda rfl
    rcases hda.cases with had | ⟨hmarker, -⟩
    · exact hda.1 (had.eq_of_not_isReference rfl).symm
    · cases hmarker
  same := by
    intro v _ hv
    exact .of_below (.refl v) hv

/-- A constructor call blurs no more. -/
theorem Blurs.initialized {v : ValueType} (hv : v.isUninitialized = true) (hda : h.Blurs d a) :
    h.Blurs (if d = v then v.initialized else d) (if a = v then v.initialized else a) := by
  by_cases hd : d = v
  · have ha : a = v := (hda.eq_of_isUninitialized (hd ▸ hv)).trans hd
    rw [if_pos hd, if_pos ha]
    exact .of_below (.refl _) nofun
  rw [if_neg hd]
  by_cases ha : a = v
  · rw [if_pos ha]
    rcases hda.cases with had | ⟨-, had⟩
    · -- Above a marker there is only the marker itself.
      have hnot := isReference_of_isUninitialized hv
      exact absurd ((had.eq_of_not_isReference (ha ▸ hnot)).symm.trans ha) hd
    · exact .of_below (ha ▸ had) hda.1
  · rw [if_neg ha]
    exact hda

end Hierarchy

/-! ### Frames -/

namespace Frame

variable {h : Hierarchy} {c : MethodContext} {f e out next : Frame} {ins : Instruction}

/-- No marker has the name of an array. -/
def ClassMarked (f : Frame) : Prop :=
  ∀ v, f.Has v → v.isUninitialized = true → namesArray v.name = false

/-- A stored frame says no more than the frame of a run. -/
abbrev Blurred (h : Hierarchy) (f e : Frame) : Prop :=
  Related h.Blurs f e

namespace Blurred

theorem initializeObject {v : ValueType} (hfe : Blurred h f e) (hv : v.isUninitialized = true) :
    Blurred h (f.initializeObject v) (e.initializeObject v) := by
  refine ⟨?_, ?_, hfe.max⟩
  · show List.Forall₂ _ (f.stack.values.map _) (e.stack.values.map _)
    rw [List.forall₂_map_left_iff, List.forall₂_map_right_iff]
    exact hfe.stack.imp fun d a hda => hda.initialized hv
  · show List.Forall₂ _ (f.locals.map _).toList (e.locals.map _).toList
    rw [Array.toList_map, Array.toList_map, List.forall₂_map_left_iff, List.forall₂_map_right_iff]
    refine hfe.locals.imp fun d a hda => ?_
    rcases hda with rfl | hda
    · have hne : unknown ≠ v := by
        rintro rfl
        cases hv
      exact .inl (if_neg hne)
    · exact .inr (hda.initialized hv)

/-- A load from an array of objects finds an array of objects in the run, too. -/
theorem loadElement (hfe : Blurred h f e) (hclasses : h.ClassesOnly) (hmarked : e.ClassMarked)
    (hcheck : f.checkArrayLoad ins .reference = .ok ())
    (hf : f.loadElement ins .reference = .ok out) :
    ∃ out', e.loadElement ins .reference = .ok out' ∧ Blurred h out out' := by
  simp only [Frame.loadElement, bind_eq_ok, Prod.exists, pop_eq_ok] at hf
  obtain ⟨index, _, ⟨_, hv, rfl⟩, array, _, ⟨vs, rfl, rfl⟩, hf⟩ := hf
  obtain ⟨index', array', ws, hw, hblurs, hrest⟩ := hfe.popElement hv
  obtain ⟨-, got, hgot, haccesses⟩ := checkArrayLoad_eq_ok.1 hcheck
  rw [hv] at hgot
  cases hgot
  simp only [ne_eq, not_true_eq_false, if_false] at hf
  have hload : ∀ t, (array' = .null ∧ t = .null ∨
      array' ≠ .null ∧ ∃ component, array'.component? = some component ∧ t = ofFieldType component) →
      e.loadElement ins .reference = (e.withValues ws).push t := by
    intro t ht
    rw [Frame.loadElement]
    simp only [pop_of_values hw, pop_withValues, bind, Except.bind]
    rcases ht with ⟨hnull, rfl⟩ | ⟨hne, component, hcomponent, rfl⟩
    · simp [hnull]
    · simp [hne, hcomponent]
  -- An object without its constructor call is no array.
  have hbelow : h.Below array' array := by
    rcases hblurs.cases with hbelow | ⟨hmarker, hbelow⟩
    · exact hbelow
    have hname := hmarked array' (.inl (hw ▸ by simp)) hmarker
    rcases haccesses with rfl | ⟨target, htarget, href⟩
    · cases hbelow.eq_of_not_reference (by simp)
    · rw [if_pos rfl] at href
      rcases hbelow.of_component? hclasses htarget href with hnull | ⟨ca, hca, -⟩
      · cases hnull
      · obtain ⟨name, hreference, harray⟩ := component?_eq_some hca
        cases hreference
        rw [hname] at harray
        cases harray
  rcases haccesses with rfl | ⟨target, htarget, href⟩
  · rw [if_pos rfl] at hf
    rw [hload .null (.inl ⟨hbelow.eq_of_not_reference (by simp), rfl⟩)]
    exact hrest.push (uniform_blurs h) (.of_below (.refl _) nofun) hf
  · rw [if_pos rfl] at href
    have hne : array ≠ .null := by
      rintro rfl
      cases htarget
    obtain ⟨element, helement⟩ := ofFieldType_of_isReference href
    have hknown : ofFieldType target ≠ .unknown := by
      rw [helement]
      nofun
    rw [if_neg hne, htarget] at hf
    rcases hbelow.of_component? hclasses htarget href with rfl | ⟨ca, hca, -, hcomponents⟩
    · rw [hload .null (.inl ⟨rfl, rfl⟩)]
      have hnull := null_below (h := h) (isReference_ofFieldType href)
      exact hrest.push (uniform_blurs h) (.of_below hnull hknown) hf
    · have hne' : array' ≠ .null := by
        rintro rfl
        cases hca
      rw [hload _ (.inr ⟨hne', ca, hca, rfl⟩)]
      exact hrest.push (uniform_blurs h) (.of_below hcomponents hknown) hf

/-- An instruction other than a throw that passes its checks on the stored frame can be run on the
frame of a run, and the stored frame goes on to say no more than that. -/
theorem run (hfe : Blurred c.hierarchy f e) (hclasses : c.hierarchy.ClassesOnly)
    (hmarked : e.ClassMarked) (hfits : c.Fits f) (hchecked : c.Checked ins)
    (hraise : ins.action ≠ .raise) (hcheck : c.check ins f = .ok ())
    (hf : c.run ins f = .ok out) :
    ∃ out', c.run ins e = .ok out' ∧ Blurred c.hierarchy out out' := by
  have hR := uniform_blurs c.hierarchy
  have hvalues := (check_eq_ok.1 hcheck).2
  by_cases huniform : ins.action.isUniform = true
  · exact Related.run hR hfe hfits huniform hcheck hf
  cases hact : ins.action with
    simp only [MethodContext.run, MethodContext.checkValues, hact] at hf hvalues ⊢
  | invoke =>
    refine Related.runInvoke hR hfe hchecked hact hvalues ?_ hf
    intro v w _ hv hblurs
    obtain rfl := hblurs.eq_of_isUninitialized hv
    exact ⟨rfl, hfe.initializeObject hv⟩
  | allocate =>
    obtain ⟨name, hname, hf⟩ := bind_eq_ok.1 hf
    simp only [hname, bind, Except.bind]
    exact hfe.push hR (.of_below (.refl _) (by simp)) hf
  | arrayLoad access =>
    cases access with
    | reference => exact hfe.loadElement hclasses hmarked hvalues hf
    | _ =>
      rw [hact] at huniform
      exact absurd rfl huniform
  | raise => exact absurd hact hraise
  | _ =>
    rw [hact] at huniform
    exact absurd rfl huniform

/-- Whatever the instruction, the local variables that it leaves say no more than those of the
run. -/
theorem run_locals (hfe : Blurred c.hierarchy f e) (hclasses : c.hierarchy.ClassesOnly)
    (hmarked : e.ClassMarked) (hfits : c.Fits f) (hchecked : c.Checked ins)
    (hcheck : c.check ins f = .ok ()) (hf : c.run ins f = .ok out) :
    ∃ out', c.run ins e = .ok out' ∧
      Blurred c.hierarchy (out.withValues []) (out'.withValues []) ∧
      (ins.action ≠ .raise → Blurred c.hierarchy out out') := by
  by_cases hraise : ins.action = .raise
  · have hvalues := (check_eq_ok.1 hcheck).2
    simp only [checkValues, hraise] at hvalues
    obtain ⟨got, hgot, href, -⟩ := checkRaise_eq_ok.1 hvalues
    obtain ⟨w, hw, hblurs⟩ := Related.operand hfe hgot
    obtain ⟨vs, hv⟩ := exists_cons_of_getElem?_zero hgot
    obtain ⟨ws, hw⟩ := exists_cons_of_getElem?_zero hw
    -- The stack of a throw is left to no one, but there has to be room for the exception.
    simp only [MethodContext.run, hraise, Frame.raise, Frame.pop_of_values hv, bind,
      Except.bind] at hf
    obtain ⟨-, hroom, rfl⟩ := push_eq_ok.1 hf
    have hsize : got.size = 1 := size_of_isObject (isObject_of_isReference href)
    have hwsize : w.size = 1 := ((uniform_blurs _).size hblurs).trans hsize
    have hthrown : ∀ v : ValueType, v.size = 1 →
        (if v = .null then .reference nullPointerClass else v).size = 1 := by
      intro v hv
      split
      · rfl
      · exact hv
    have hpush : ∃ out', ({ e.withValues ws with
        stack := (e.withValues ws).stack.clear } : Frame).push
          (if w = .null then .reference nullPointerClass else w) = .ok out' := by
      refine ⟨_, push_eq_ok.2 ⟨?_, ?_, rfl⟩⟩
      · split
        · simp
        · exact (uniform_blurs _).known hblurs
      · rw [hthrown got hsize] at hroom
        rw [hthrown w hwsize]
        simpa [Stack.clear, hfe.max] using hroom
    obtain ⟨out', hpush⟩ := hpush
    refine ⟨out', ?_, ?_, fun hne => absurd hraise hne⟩
    · simp only [MethodContext.run, hraise, Frame.raise, Frame.pop_of_values hw, bind, Except.bind]
      exact hpush
    · obtain ⟨-, -, rfl⟩ := push_eq_ok.1 hpush
      exact hfe.withValues .nil
  · obtain ⟨out', hrun, hout⟩ := hfe.run hclasses hmarked hfits hchecked hraise hcheck hf
    exact ⟨out', hrun, hout.withValues .nil, fun _ => hout⟩

theorem caught {out' : Frame} (hlocals : Blurred h (out.withValues []) (out'.withValues []))
    (guard : Guard) : Blurred h (caughtFrame guard f out) (caughtFrame guard e out') :=
  ⟨.cons (.of_below (.refl _) nofun) .nil, hlocals.locals, hlocals.max⟩

theorem refl (hvalues : unknown ∉ f.stack.values) : Blurred h f f := by
  refine ⟨List.forall₂_same.2 fun v hv => ?_, List.forall₂_same.2 fun v _ => ?_, rfl⟩
  · exact .of_below (.refl v) (ne_of_mem_of_not_mem hv hvalues)
  · exact blurs_iff.2 (.inr (.inl (.refl v)))

/-- A frame that covers a stored frame says no more than what that frame blurs. -/
theorem of_covers (hfe : Blurred h f e) (hcovers : next.Covers h f)
    (hmax : next.stack.max = f.stack.max) : Blurred h next e := by
  refine ⟨forall₂_of_left hcovers.stack hfe.stack fun a d b hbelow hblurs => ⟨?_, ?_⟩,
    forall₂_of_left hcovers.locals hfe.locals fun a d b hbelow hblurs => ?_,
    hfe.max.trans hmax.symm⟩
  · rintro rfl
    exact hblurs.1 (hbelow.eq_of_not_reference (by simp))
  · exact localBelow_trans hblurs.2 (.inr (.inl hbelow))
  · exact blurs_iff.2 (localBelow_trans (blurs_iff.1 hblurs) hbelow)

end Blurred

end Frame

end Bytecode
