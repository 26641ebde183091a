import Bytecode.Proofs.Capacity
import Bytecode.Proofs.DeclaredTypes

/-!
Checks on smaller frames: what an instruction demands of a frame holds of every frame of declared
values that it covers.

Main statement: `check_of_standsFor`.

Loads of longs and doubles are an exception: they demand that a local variable is unusable, which a
smaller frame need not have.
-/
namespace Bytecode

open ValueType Hierarchy Bytecode.Frame

/-! ### Values of declared types -/

/-- A value that is initialized and, if it is an object, of a declared type. -/
structure ValueType.Declared (v : ValueType) : Prop where
  initialized : v.isUninitialized = false
  object : ∀ name, v = .reference name → ∃ t : FieldType, t.IsObject ∧ v = ofFieldType t

theorem ValueType.declared_of_ne {v : ValueType} (hv : v.isUninitialized = false)
    (hne : ∀ name, v ≠ .reference name) : v.Declared :=
  ⟨hv, fun name hname => absurd hname (hne name)⟩

theorem FieldType.IsObject.declared {t : FieldType} (h : t.IsObject) : (ofFieldType t).Declared := by
  obtain ⟨name, hname⟩ := ofFieldType_of_isReference h.isReference
  exact ⟨by rw [hname]; rfl, fun _ _ => ⟨t, h, rfl⟩⟩

theorem FieldType.Named.declared {t : FieldType} (h : t.Named) (hdims : t.dims ≤ 256) :
    (ofFieldType t).Declared := by
  by_cases href : t.isReference = true
  · exact IsObject.declared ⟨href, h, hdims⟩
  · obtain ⟨element, dims⟩ := t
    cases dims with
    | succ => simp [isReference, isArray] at href
    | zero =>
      cases element with
      | object => exact absurd rfl href
      | _ => exact declared_of_ne rfl (by simp [ofFieldType, isArray])

theorem FieldType.IsObject.isArray_ofFieldType {t : FieldType} (h : t.IsObject) :
    (ofFieldType t).isArray = t.isArray := by
  rcases h.cases with ⟨name, hname, rfl⟩ | ⟨s, rfl, -⟩
  · exact hname.namesArray
  · rw [isArray_ofFieldType_array]
    rfl

theorem FieldType.IsObject.isClass_ofFieldType {t : FieldType} (h : t.IsObject) :
    (ofFieldType t).isClass = !t.isArray := by
  rw [← h.isArray_ofFieldType]
  obtain ⟨name, hname⟩ := ofFieldType_of_isReference h.isReference
  rw [hname]
  rfl

namespace Hierarchy

variable {h : Hierarchy} {a d : ValueType}

/-- What is below a value: itself, null below an object, or an object of a smaller type. -/
theorem Below.cases_declared (hs : h.Sound) (hab : Below h a d) (ha : a.Declared) :
    a = d ∨ (a = .null ∧ ∃ name, d = .reference name) ∨ ∃ s t : FieldType,
      s.IsObject ∧ t.IsObject ∧ a = ofFieldType s ∧ d = ofFieldType t ∧ Under h s t := by
  rcases hab.eq_or_reference with rfl | ⟨href, name, rfl⟩
  · exact .inl rfl
  · by_cases hnull : a = .null
    · exact .inr (.inl ⟨hnull, name, rfl⟩)
    · obtain ⟨name', rfl⟩ := eq_reference_of_isReference href hnull
      obtain ⟨s, hs', has⟩ := ha.object name' rfl
      obtain ⟨t, ht, hdt, hst⟩ := hab.under hs hs' has
      exact .inr (.inr ⟨s, t, hs', ht, has, hdt, hst⟩)

theorem Below.isReference (hab : Below h a d) (hd : d.isReference = true) :
    a.isReference = true := by
  rcases hab.eq_or_reference with rfl | ⟨href, -⟩
  · exact hd
  · exact href

theorem Below.isObject (hab : Below h a d) (hd : d.isObject = true) : a.isObject = true := by
  rcases hab.eq_or_reference with rfl | ⟨href, -⟩
  · exact hd
  · simp [ValueType.isObject, href]

theorem Below.size (hab : Below h a d) : a.size = d.size := by
  rcases hab.eq_or_reference with rfl | ⟨href, name, rfl⟩
  · rfl
  · cases a <;> simp_all [ValueType.isReference, ValueType.size]

theorem Below.assignable (hs : h.Sound) (hab : Below h a d) (ha : a.Declared) {w : ValueType}
    (hw : h.assignable d w = .ok true) : h.assignable a w = .ok true := by
  rcases hab.cases_declared hs ha with rfl | ⟨rfl, name, rfl⟩ | ⟨s, t, hs', ht, rfl, rfl, hst⟩
  · exact hw
  · obtain ⟨w, rfl⟩ := eq_reference_of_assignable hw
    unfold assignable
    simp
  · exact assignable_of_under hs hst hs' ht hw

theorem Below.isArray (hs : h.Sound) (hab : Below h a d) (ha : a.Declared)
    (hd : d.isArray = true) : a = .null ∨ a.isArray = true := by
  rcases hab.cases_declared hs ha with rfl | ⟨rfl, -⟩ | ⟨s, t, hs', ht, rfl, rfl, hst⟩
  · exact .inr hd
  · exact .inl rfl
  · right
    have hdims := hst.dims_le
    rw [ht.isArray_ofFieldType] at hd
    rw [hs'.isArray_ofFieldType]
    simp only [FieldType.isArray, decide_eq_true_eq] at hd ⊢
    omega

/-- The components of arrays are in the order of the arrays. -/
theorem Below.component? (hs : h.Sound) (hab : Below h a d) (ha : a.Declared) {target : FieldType}
    (hd : d.component? = some target) : a = .null ∨ ∃ component,
      a.component? = some component ∧ (ofFieldType component).Declared ∧
      (component = target ∨ (component.isReference = true ∧ target.isReference = true)) ∧
      Below h (ofFieldType component) (ofFieldType target) := by
  obtain ⟨name, rfl, harray⟩ := component?_eq_some hd
  rcases hab.isArray hs ha harray with hnull | harray'
  · exact .inl hnull
  · right
    obtain ⟨name', rfl⟩ : ∃ name', a = .reference name' := by
      cases a <;> simp_all [ValueType.isArray]
    obtain ⟨s, hs', has⟩ := ha.object name' rfl
    obtain ⟨t, ht, hdt, hst⟩ := hab.under hs hs' has
    rw [hdt] at hd
    rw [has] at harray' ⊢
    rw [hs'.isArray_ofFieldType] at harray'
    cases hst with
    | refl =>
      obtain ⟨component, rfl⟩ := FieldType.eq_array_of_isArray harray'
      have hdims : component.dims ≤ 255 := Nat.le_of_succ_le_succ hs'.dims
      cases hd.symm.trans (component?_array hs'.named hdims)
      exact ⟨target, hd, FieldType.Named.declared hs'.named (by omega), .inl rfl, .refl _⟩
    | root =>
      rw [ofFieldType_class] at hdt
      cases hdt
      cases harray
    | subclass => cases harray'
    | @array a b m n left right under =>
      have hm : m ≤ 255 := Nat.le_of_succ_le_succ hs'.dims
      have hn : n ≤ 255 := Nat.le_of_succ_le_succ ht.dims
      have ha' : FieldType.IsObject ⟨a, m⟩ := .of_array (t := ⟨a, m⟩) hs' left
      have hb' : FieldType.IsObject ⟨b, n⟩ := .of_array (t := ⟨b, n⟩) ht right
      have hsource : (ofFieldType ⟨a, m + 1⟩).component? = some ⟨a, m⟩ :=
        component?_array (t := ⟨a, m⟩) ha'.named hm
      have htarget : (ofFieldType ⟨b, n + 1⟩).component? = some ⟨b, n⟩ :=
        component?_array (t := ⟨b, n⟩) hb'.named hn
      rw [htarget, Option.some.injEq] at hd
      subst hd
      exact ⟨⟨a, m⟩, hsource, ha'.declared, .inr ⟨left, right⟩, below_of_under under ha' hb'⟩

/-- Below a class there are only null and classes, as long as the class is not the root. -/
theorem Below.knownSubclass (hs : h.Sound) (hab : Below h a d) (ha : a.Declared)
    (hd : d.isClass = true) {w : String} (hw : h.knownSubclass d.name w = .ok true) :
    a = .null ∨ w = objectClass ∨ (a.isClass = true ∧ h.knownSubclass a.name w = .ok true) := by
  rcases hab.cases_declared hs ha with rfl | ⟨rfl, -⟩ | ⟨s, t, hs', ht, rfl, rfl, hst⟩
  · exact .inr (.inr ⟨hd, hw⟩)
  · exact .inl rfl
  · right
    cases hst with
    | refl => exact .inr ⟨hd, hw⟩
    | root => exact .inl (hs.top (mapError_eq_ok.1 hw))
    | subclass sub =>
      exact .inr ⟨hs'.isClass_ofFieldType, mapError_eq_ok.2 (hs.trans sub (mapError_eq_ok.1 hw))⟩
    | array =>
      rw [ht.isClass_ofFieldType] at hd
      simp [FieldType.isArray] at hd

end Hierarchy

/-! ### Demands on single values -/

namespace MethodContext

variable {c : MethodContext} {ins : Instruction} {a d : ValueType}

theorem Assigns.of_below (hs : c.hierarchy.Sound) (hab : c.hierarchy.Below a d) (ha : a.Declared)
    {want : ValueType} (h : c.Assigns d want) : c.Assigns a want := by
  cases want with
  | reference name => exact ⟨ha.initialized, hab.assignable hs ha h.2⟩
  | _ =>
    obtain rfl : d = _ := h
    exact hab.eq_of_not_reference (by simp)

theorem head_descriptor_of_isReference {t : FieldType} (h : t.isReference = true) :
    t.descriptor.toList.head? = some '[' ∨ t.descriptor.toList.head? = some 'L' := by
  obtain ⟨element, dims⟩ := t
  rw [FieldType.toList_descriptor]
  cases dims with
  | succ => simp [List.replicate_succ]
  | zero =>
    cases element with
    | object => simp [BaseType.descriptor, String.toList_append]
    | _ => cases h

theorem head_of_mem_elementDescriptors {access : ElementAccess} {desc : String}
    (h : desc ∈ elementDescriptors access) :
    desc.toList.head? ≠ some '[' ∧ desc.toList.head? ≠ some 'L' := by
  revert desc
  cases access <;> simp [elementDescriptors]

theorem accesses_of_below (hs : c.hierarchy.Sound) (hab : c.hierarchy.Below a d) (ha : a.Declared)
    {access : ElementAccess} (h : Frame.Accesses access d) : Frame.Accesses access a := by
  rcases h with rfl | ⟨target, htarget, haccess⟩
  · exact .inl (hab.eq_of_not_reference (by simp))
  · rcases hab.component? hs ha htarget with rfl | ⟨component, hcomponent, -, hsame, -⟩
    · exact .inl rfl
    · refine .inr ⟨component, hcomponent, ?_⟩
      rcases hsame with rfl | ⟨href, href'⟩
      · exact haccess
      · -- Only an access to references accepts an array of references.
        have hkind : access = .reference := by
          by_contra hne
          rw [if_neg hne] at haccess
          obtain ⟨hbracket, hclass⟩ := head_of_mem_elementDescriptors haccess
          exact (head_descriptor_of_isReference href').elim hbracket hclass
        rw [if_pos hkind]
        exact href

theorem checkProtectedReceiver_eq_ok {decl : Class} {access : AccessFlags} {name : String} :
    c.checkProtectedReceiver ins decl access name d = .ok () ↔
      (!access.has .protectedBit || decl.package = c.owner.package ||
        decl.name = c.owner.name) = true ∨
      ∃ inherits, c.hierarchy.knownSubclass c.owner.name decl.name = .ok inherits ∧
        (inherits = true → d = .null ∨ d.isUninitializedThis = true ∨
          (d.isArray = true ∧ name = "clone") ∨
          (d.isClass = true ∧ c.hierarchy.knownSubclass d.name c.owner.name = .ok true)) := by
  unfold checkProtectedReceiver
  split
  · next hfree => simp [hfree, pure, Except.pure]
  · next hfree =>
    rw [or_iff_right hfree, bind_eq_ok]
    simp only [known_eq_ok]
    refine exists_congr fun inherits => and_congr_right fun _ => ?_
    cases inherits with
    | false => simp [pure, Except.pure]
    | true =>
      simp only [Bool.not_true, Bool.false_eq_true, if_false, true_implies]
      rw [← or_assoc]
      by_cases hexempt : d = .null ∨ d.isUninitializedThis = true
      · rw [if_pos (by simpa using hexempt)]
        exact iff_of_true rfl (.inl hexempt)
      · rw [if_neg (by simpa using hexempt), or_iff_right hexempt]
        by_cases hclone : d.isArray = true ∧ name = "clone"
        · rw [if_pos (by simpa using hclone)]
          exact iff_of_true rfl (.inl hclone)
        · rw [if_neg (by simpa using hclone), or_iff_right hclone]
          split
          · next hclass =>
            simp only [bind_eq_ok, known_eq_ok, hclass, true_and]
            constructor
            · rintro ⟨sub, hsub, hreject⟩
              cases sub with
              | true => exact hsub
              | false => cases hreject
            · intro hsub
              exact ⟨true, hsub, rfl⟩
          · next hclass => simp [hclass]

theorem checkProtectedReceiver_of_below (hs : c.hierarchy.Sound) (hab : c.hierarchy.Below a d)
    (ha : a.Declared) {decl : Class} {access : AccessFlags} {name : String}
    (h : c.checkProtectedReceiver ins decl access name d = .ok ()) :
    c.checkProtectedReceiver ins decl access name a = .ok () := by
  rw [checkProtectedReceiver_eq_ok] at h ⊢
  rcases h with hfree | ⟨inherits, hinherits, h⟩
  · exact .inl hfree
  · cases inherits with
    | false => exact .inr ⟨false, hinherits, nofun⟩
    | true =>
      rcases h rfl with rfl | hthis | ⟨harray, hclone⟩ | ⟨hclass, hsub⟩
      · exact .inr ⟨true, hinherits, fun _ => .inl (hab.eq_of_not_reference (by simp))⟩
      · obtain rfl := hab.eq_of_not_reference (by rintro _ rfl; cases hthis)
        exact .inr ⟨true, hinherits, fun _ => .inr (.inl hthis)⟩
      · rcases hab.isArray hs ha harray with hnull | harray'
        · exact .inr ⟨true, hinherits, fun _ => .inl hnull⟩
        · exact .inr ⟨true, hinherits, fun _ => .inr (.inr (.inl ⟨harray', hclone⟩))⟩
      · rcases hab.knownSubclass hs ha hclass hsub with hnull | hroot | hsub'
        · exact .inr ⟨true, hinherits, fun _ => .inl hnull⟩
        · -- The root inherits from no other class, so the member is its own.
          left
          rw [hroot] at hinherits
          have hdecl := hs.top (mapError_eq_ok.1 hinherits)
          simp [hdecl, hroot]
        · exact .inr ⟨true, hinherits, fun _ => .inr (.inr (.inr hsub'))⟩

/-! ### Fields -/

theorem owner_of_assignable_root (hs : c.hierarchy.Sound) {w : String}
    (hw : c.hierarchy.assignable (.reference objectClass) (.reference w) = .ok true) :
    w = objectClass ∨ c.hierarchy.knownInterface w = .ok true := by
  have hclass := namesArray_of_assignable isClassName_objectClass.namesArray hw
  rcases (assignable_class hclass).1 hw with heq | heq | hinterface | ⟨-, -, hsub⟩
  · exact .inl heq.symm
  · exact .inl heq
  · exact .inr hinterface
  · exact .inl (hs.top (mapError_eq_ok.1 hsub))

theorem Holds.of_below (hs : c.hierarchy.Sound) (hab : c.hierarchy.Below a d) (ha : a.Declared)
    {r : ResolvedField} {isPut : Bool} (hr : c.resolveField ins = .ok r)
    (hstatic : r.field.access.has .staticBit = false) (h : c.Holds r isPut d) :
    c.Holds r isPut a := by
  rcases h with rfl | hthis | ⟨hclass, hassign⟩
  · exact .inl (hab.eq_of_not_reference (by simp))
  · obtain rfl := hab.eq_of_not_reference (by rintro _ rfl; cases hthis)
    exact .inr (.inl hthis)
  · have hassign' := hab.assignable hs ha hassign
    rcases hab.cases_declared hs ha with rfl | ⟨rfl, -⟩ | ⟨s, t, hs', ht, rfl, rfl, hst⟩
    · exact .inr (.inr ⟨hclass, hassign⟩)
    · exact .inl rfl
    · cases hst with
      | refl => exact .inr (.inr ⟨hclass, hassign⟩)
      | root =>
        -- The root and interfaces have no fields that an object could hold.
        have hfields := hs.fields (owner_of_assignable_root hs hassign) (resolveField_ok hr).1
        cases hstatic.symm.trans hfields
      | subclass => exact .inr (.inr ⟨hs'.isClass_ofFieldType, hassign'⟩)
      | array =>
        rw [ht.isClass_ofFieldType] at hclass
        simp [FieldType.isArray] at hclass

/-! ### Frames -/

end MethodContext

/-- All values of a frame are of declared types or primitive, and no constructor is under way. -/
structure Frame.Declared (f : Frame) : Prop where
  stack : ∀ v ∈ f.stack.values, v.Declared
  locals : ∀ v ∈ f.locals, v.Declared
  thisUninitialized : f.thisUninitialized = false

namespace MethodContext

/-- The frame `g` stands for a frame `f` of declared values that it covers. -/
structure StandsFor (c : MethodContext) (g f : Frame) : Prop where
  covers : g.Covers c.hierarchy f
  declared : f.Declared
  max : f.stack.max = g.stack.max

variable {c : MethodContext} {ins : Instruction} {f g : Frame}

variable {i : Nat} {d a : ValueType} {kind : Kind}

namespace StandsFor

theorem operand (h : c.StandsFor g f) (hd : g.stack.values[i]? = some d) :
    ∃ a, f.stack.values[i]? = some a ∧ c.hierarchy.Below a d ∧ a.Declared := by
  obtain ⟨a, ha, hab⟩ := exists_of_forall₂ h.covers.stack hd
  exact ⟨a, ha, hab, h.declared.stack a (List.mem_of_getElem? ha)⟩

theorem getLocal (h : c.StandsFor g f) (hd : g.locals[i]? = some d) (hne : d ≠ .unknown) :
    ∃ a, f.locals[i]? = some a ∧ c.hierarchy.Below a d ∧ a.Declared := by
  rw [← Array.getElem?_toList] at hd
  obtain ⟨a, ha, hab⟩ := exists_of_forall₂ h.covers.locals hd
  rw [Array.getElem?_toList] at ha
  have hdeclared := h.declared.locals a (Array.mem_of_getElem? ha)
  refine ⟨a, ha, ?_, hdeclared⟩
  rcases hab with hunknown | hab | ⟨hmarker, -⟩
  · exact absurd hunknown hne
  · exact hab
  · rw [hdeclared.initialized] at hmarker
    cases hmarker

/-- A value that is no object is the same in both frames. -/
theorem operand_eq (h : c.StandsFor g f) (hd : g.stack.values[i]? = some d)
    (hne : ∀ name, d ≠ .reference name) : f.stack.values[i]? = some d := by
  obtain ⟨a, ha, hab, -⟩ := h.operand hd
  rw [ha, hab.eq_of_not_reference hne]

theorem sizes (h : c.StandsFor g f) :
    f.stack.values.map ValueType.size = g.stack.values.map ValueType.size := by
  have hstack := h.covers.stack
  generalize f.stack.values = l at hstack
  generalize g.stack.values = l' at hstack
  induction hstack with
  | nil => rfl
  | cons hab _ ih => rw [List.map_cons, List.map_cons, hab.size, ih]

theorem locals_size (h : c.StandsFor g f) : f.locals.size = g.locals.size := by
  simpa using h.covers.locals.length_eq

theorem checkStackAccess (h : c.StandsFor g f) (hcheck : c.checkStackAccess ins g = .ok ()) :
    c.checkStackAccess ins f = .ok () := by
  rw [checkStackAccess_eq_ok] at hcheck ⊢
  rw [slotsOf, h.sizes, ← slotsOf, h.max]
  exact hcheck

end StandsFor

theorem loads_of_below (hab : c.hierarchy.Below a d) (h : kind.Loads d) : kind.Loads a := by
  cases kind with
  | reference => exact hab.isObject h
  | numeric n =>
    obtain rfl : d = .ofNumeric n := h
    exact hab.eq_of_not_reference (by cases n <;> simp [ofNumeric])

theorem stores_of_below (hab : c.hierarchy.Below a d) (h : kind.Stores d) : kind.Stores a := by
  cases kind with
  | reference =>
    rcases h with hobject | ⟨x, rfl⟩
    · exact .inl (hab.isObject hobject)
    · exact .inr ⟨x, hab.eq_of_not_reference (by simp)⟩
  | numeric n =>
    obtain rfl : d = .ofNumeric n := h
    exact hab.eq_of_not_reference (by cases n <;> simp [ofNumeric])

namespace StandsFor

variable (hs : c.hierarchy.Sound) (h : c.StandsFor g f)
include hs h

theorem checkReturn {value : Option Kind} (hcheck : c.checkReturn ins value g = .ok ()) :
    c.checkReturn ins value f = .ok () := by
  rw [checkReturn_eq_ok] at hcheck ⊢
  unfold Returns at hcheck ⊢
  cases hresult : c.type.result with
  | none =>
    rcases value with _ | _ | _
    · simp [h.declared.thisUninitialized]
    · simp [hresult] at hcheck
    · simp [hresult] at hcheck
  | some result =>
    rcases value with _ | n | _
    · simp [hresult] at hcheck
    · simp only [hresult] at hcheck ⊢
      exact ⟨hcheck.1, h.operand_eq hcheck.2 (by cases n <;> simp [ofNumeric])⟩
    · simp only [hresult] at hcheck ⊢
      obtain ⟨hreference, d, hd, hdreference, hassigns⟩ := hcheck
      obtain ⟨a, ha, hab, hdeclared⟩ := h.operand hd
      exact ⟨hreference, a, ha, hab.isReference hdreference, hassigns.of_below hs hab hdeclared⟩

theorem checkField {access : FieldAccess} (hcheck : c.checkField ins access g = .ok ()) :
    c.checkField ins access f = .ok () := by
  rw [checkField_eq_ok] at hcheck ⊢
  obtain ⟨r, hr, hstatic, hstore, hobject⟩ := hcheck
  refine ⟨r, hr, hstatic, fun hput => ?_, fun hinstance => ?_⟩
  · obtain ⟨⟨d, hd, hassigns⟩, hfinal, hinterface⟩ := checkFieldStore_eq_ok.1 (hstore hput)
    obtain ⟨a, ha, hab, hdeclared⟩ := h.operand hd
    exact checkFieldStore_eq_ok.2 ⟨⟨a, ha, hassigns.of_below hs hab hdeclared⟩, hfinal, hinterface⟩
  · obtain ⟨d, hd, hholds, hprotected⟩ := checkFieldObject_eq_ok.1 (hobject hinstance)
    obtain ⟨a, ha, hab, hdeclared⟩ := h.operand hd
    rw [decide_eq_false hinstance] at hstatic
    exact checkFieldObject_eq_ok.2 ⟨a, ha, hholds.of_below hs hab hdeclared hr hstatic,
      checkProtectedReceiver_of_below hs hab hdeclared hprotected⟩

theorem checkArguments {args : List FieldType} (hcheck : c.checkArguments ins args g = .ok ()) :
    c.checkArguments ins args f = .ok () := by
  rw [checkArguments_eq_ok] at hcheck ⊢
  intro i arg harg
  obtain ⟨d, hd, hassigns⟩ := hcheck i arg harg
  obtain ⟨a, ha, hab, hdeclared⟩ := h.operand hd
  exact ⟨a, ha, hassigns.of_below hs hab hdeclared⟩

theorem checkInvoke {kind : InvokeKind} (hcheck : c.checkInvoke ins kind g = .ok ()) :
    c.checkInvoke ins kind f = .ok () := by
  rw [checkInvoke_eq_ok] at hcheck ⊢
  obtain ⟨r, hr, harguments, htarget⟩ := hcheck
  refine ⟨r, hr, h.checkArguments hs harguments, fun target hmem => ?_⟩
  have hinvoke := htarget target hmem
  split
  · next hstatic => simpa [hstatic] using hinvoke
  · next hinstance =>
    rw [if_neg hinstance] at hinvoke
    obtain ⟨hmethod, hcount, d, hd, hreceiver⟩ := hinvoke
    obtain ⟨a, ha, hab, hdeclared⟩ := h.operand hd
    refine ⟨hmethod, hcount, a, ha, ?_⟩
    split
    · next hname =>
      -- A constructor is called on a marker, which would be in both frames.
      rw [if_pos hname] at hreceiver
      obtain rfl := hab.eq_of_not_reference (by rintro _ rfl; cases hreceiver)
      exact hreceiver
    · next hname =>
      rw [if_neg hname] at hreceiver
      obtain ⟨hreference, hdemands⟩ := checkReceiver_eq_ok.1 hreceiver
      refine checkReceiver_eq_ok.2 ⟨hab.isReference hreference, fun hnull => ?_⟩
      have hnull' : d ≠ .null := by
        rintro rfl
        exact hnull (hab.eq_of_not_reference (by simp))
      obtain ⟨hspecial, hassign, hprotected⟩ := hdemands hnull'
      exact ⟨fun hkind => hab.assignable hs hdeclared (hspecial hkind),
        hab.assignable hs hdeclared hassign,
        checkProtectedReceiver_of_below hs hab hdeclared hprotected⟩

theorem checkRaise (hcheck : c.checkRaise ins g = .ok ()) : c.checkRaise ins f = .ok () := by
  rw [checkRaise_eq_ok] at hcheck ⊢
  obtain ⟨d, hd, hreference, hdemands⟩ := hcheck
  obtain ⟨a, ha, hab, hdeclared⟩ := h.operand hd
  refine ⟨a, ha, hab.isReference hreference, fun hnull => ?_⟩
  have hnull' : d ≠ .null := by
    rintro rfl
    exact hnull (hab.eq_of_not_reference (by simp))
  obtain ⟨hclass, hsub⟩ := hdemands hnull'
  rcases hab.knownSubclass hs hdeclared hclass hsub with hnull'' | hroot | hthrown
  · exact absurd hnull'' hnull
  · exact absurd hroot (by decide)
  · exact hthrown

theorem checkValues (hload : ∀ kind i, ins.action = .load kind i → kind.size = 1)
    (hcheck : c.checkValues ins g = .ok ()) : c.checkValues ins f = .ok () := by
  cases hact : ins.action with simp only [MethodContext.checkValues, hact] at hcheck ⊢
  | load kind i =>
    obtain ⟨hslot, d, hd, -, hloads⟩ := checkLoad_eq_ok.1 hcheck
    obtain ⟨a, ha, hab, -⟩ := h.getLocal hd hloads.ne_unknown
    have hsize := hload kind i hact
    refine checkLoad_eq_ok.2 ⟨h.locals_size ▸ hslot, a, ha, ?_, loads_of_below hab hloads⟩
    intro htwo
    omega
  | store kind i =>
    obtain ⟨hslot, d, hd, hstores⟩ := checkStore_eq_ok.1 hcheck
    obtain ⟨a, ha, hab, -⟩ := h.operand hd
    exact checkStore_eq_ok.2 ⟨h.locals_size ▸ hslot, a, ha, stores_of_below hab hstores⟩
  | arrayLoad access =>
    obtain ⟨hindex, d, hd, haccesses⟩ := checkArrayLoad_eq_ok.1 hcheck
    obtain ⟨a, ha, hab, hdeclared⟩ := h.operand hd
    exact checkArrayLoad_eq_ok.2 ⟨h.operand_eq hindex (by simp), a, ha,
      accesses_of_below hs hab hdeclared haccesses⟩
  | arrayStore access =>
    obtain ⟨⟨v, hv, hvalue⟩, hindex, d, hd, haccesses⟩ := checkArrayStore_eq_ok.1 hcheck
    obtain ⟨u, hu, huv, -⟩ := h.operand hv
    obtain ⟨a, ha, hab, hdeclared⟩ := h.operand hd
    refine checkArrayStore_eq_ok.2 ⟨⟨u, hu, ?_⟩, h.operand_eq hindex (by simp), a, ha,
      accesses_of_below hs hab hdeclared haccesses⟩
    split
    · next hkind =>
      rw [if_pos hkind] at hvalue
      exact huv.isReference hvalue
    · next hkind =>
      -- Nothing but a reference has other values below it.
      rw [if_neg hkind] at hvalue
      subst hvalue
      exact huv.eq_of_not_reference (by cases access <;> simp [elementType])
  | stack op =>
    rw [checkStackOp_eq_ok] at hcheck ⊢
    rwa [h.sizes]
  | arith top next result =>
    simp only [bind_eq_ok, exists_unit, expect_eq_ok] at hcheck ⊢
    have hne : ∀ (n : Numeric) name, ofNumeric n ≠ .reference name := by
      intro n name
      cases n <;> simp [ofNumeric]
    refine ⟨h.operand_eq hcheck.1 (hne top), ?_⟩
    cases next with
    | none => rfl
    | some next => exact expect_eq_ok.2 (h.operand_eq (expect_eq_ok.1 hcheck.2) (hne next))
  | iinc =>
    rw [checkIncrement_eq_ok] at hcheck ⊢
    obtain ⟨a, ha, hab, -⟩ := h.getLocal hcheck (by simp)
    rw [ha, hab.eq_of_not_reference (by simp)]
  | branch condition =>
    rw [checkCondition_eq_ok] at hcheck ⊢
    cases condition with
    | intZero => exact h.operand_eq hcheck (by simp)
    | intPair => exact ⟨h.operand_eq hcheck.1 (by simp), h.operand_eq hcheck.2 (by simp)⟩
    | refPair =>
      obtain ⟨⟨d, hd, hobject⟩, d', hd', hobject'⟩ := hcheck
      obtain ⟨a, ha, hab, -⟩ := h.operand hd
      obtain ⟨a', ha', hab', -⟩ := h.operand hd'
      exact ⟨⟨a, ha, hab.isObject hobject⟩, a', ha', hab'.isObject hobject'⟩
    | refNull =>
      obtain ⟨d, hd, hreference⟩ := hcheck
      obtain ⟨a, ha, hab, -⟩ := h.operand hd
      exact ⟨a, ha, hab.isReference hreference⟩
  | ret =>
    rw [checkRet_eq_ok] at hcheck ⊢
    obtain ⟨x, hx⟩ := hcheck
    obtain ⟨a, ha, hab, -⟩ := h.getLocal hx (by simp)
    exact ⟨x, by rw [ha, hab.eq_of_not_reference (by simp)]⟩
  | switch | newArray =>
    rw [expect_eq_ok] at hcheck ⊢
    exact h.operand_eq hcheck (by simp)
  | leave value => exact h.checkReturn hs hcheck
  | field access => exact h.checkField hs hcheck
  | invoke kind => exact h.checkInvoke hs hcheck
  | allocate => exact hcheck
  | newRefArray =>
    simp only [bind_eq_ok, exists_unit, expect_eq_ok] at hcheck ⊢
    exact ⟨h.operand_eq hcheck.1 (by simp), hcheck.2⟩
  | newMultiArray =>
    simp only [bind_eq_ok, exists_unit, List.forM_eq_forM, forM_eq_ok, expect_eq_ok] at hcheck ⊢
    exact ⟨fun depth hdepth => h.operand_eq (hcheck.1 depth hdepth) (by simp), hcheck.2⟩
  | arrayLength =>
    rw [checkArrayLength_eq_ok] at hcheck ⊢
    obtain ⟨d, hd, hnull | harray⟩ := hcheck
    · subst hnull
      exact ⟨.null, h.operand_eq hd (by simp), .inl rfl⟩
    · obtain ⟨a, ha, hab, hdeclared⟩ := h.operand hd
      exact ⟨a, ha, hab.isArray hs hdeclared harray⟩
  | raise => exact h.checkRaise hs hcheck
  | checkCast | instanceOf =>
    simp only [bind_eq_ok, expectReference_eq_ok] at hcheck ⊢
    obtain ⟨d, ⟨hd, hreference⟩, hclass⟩ := hcheck
    obtain ⟨a, ha, hab, -⟩ := h.operand hd
    exact ⟨a, ⟨ha, hab.isReference hreference⟩, hclass⟩
  | monitor =>
    rw [expectObject_eq_ok] at hcheck ⊢
    obtain ⟨d, hd, hobject⟩ := hcheck
    obtain ⟨a, ha, hab, -⟩ := h.operand hd
    exact ⟨a, ha, hab.isObject hobject⟩
  | wide => cases hcheck

end StandsFor

/-- The checks that pass on a frame pass on every frame that it stands for. -/
theorem check_of_standsFor (hs : c.hierarchy.Sound) (h : c.StandsFor g f)
    (hload : ∀ kind i, ins.action = .load kind i → kind.size = 1)
    (hcheck : c.check ins g = .ok ()) : c.check ins f = .ok () := by
  rw [check_eq_ok] at hcheck ⊢
  exact ⟨h.checkStackAccess hcheck.1, h.checkValues hs hload hcheck.2⟩

end MethodContext

end Bytecode
