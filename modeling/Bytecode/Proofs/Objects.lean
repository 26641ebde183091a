import Bytecode.Proofs.Freshness
import Bytecode.Proofs.RelatedFrames

/-!
Runs in which every object has a marker of its own.

Data flow marks an object by the offset of its allocation. To say which object an instruction uses,
a run along a path numbers the objects instead, in the order of their allocation. Where no frame has
met its own marker, and no merge has taken a marker for an initialized object, the markers of data
flow and those numbers go together one by one, and an instruction does the same to both.

Main statements: `Mirrors.run` and `Mirrors.allocate`.
-/
namespace Bytecode

open MethodContext ValueType

namespace ValueType

/-- A marker with a number in the place of its offset. -/
def relabel (ids : String → Int → Int) : ValueType → ValueType
  | .uninitialized name site => .uninitialized name (ids name site)
  | v => v

variable {ids : String → Int → Int} {v w : ValueType}

@[simp] theorem isUninitialized_relabel : (v.relabel ids).isUninitialized = v.isUninitialized := by
  cases v <;> rfl

@[simp] theorem isUninitializedThis_relabel :
    (v.relabel ids).isUninitializedThis = v.isUninitializedThis := by
  cases v <;> rfl

@[simp] theorem size_relabel : (v.relabel ids).size = v.size := by
  cases v <;> rfl

@[simp] theorem initialized_relabel : (v.relabel ids).initialized = v.initialized := by
  cases v <;> rfl

/-- The numbers once an object has got its own. -/
def renumber (ids : String → Int → Int) (name : String) (site number : Int) : String → Int → Int :=
  fun name' site' => if name' = name ∧ site' = site then number else ids name' site'

theorem renumber_self {name : String} {site number : Int} :
    (uninitialized name site).relabel (renumber ids name site number) =
      .uninitialized name number := by
  simp [relabel, renumber]

theorem relabel_renumber {name : String} {site number : Int} (hv : v ≠ .uninitialized name site) :
    v.relabel (renumber ids name site number) = v.relabel ids := by
  cases v with
  | uninitialized name' site' =>
    simp only [relabel, renumber]
    rw [if_neg]
    rintro ⟨rfl, rfl⟩
    exact hv rfl
  | _ => rfl

/-- A value goes with one of data flow: it is the same marker with its number, or both are no
markers. -/
inductive Shows (ids : String → Int → Int) : ValueType → ValueType → Prop
  | marker {v : ValueType} (hv : v.isUninitialized = true) : Shows ids v (v.relabel ids)
  | other {v w : ValueType} (hv : v.isUninitialized = false) (hw : w.isUninitialized = false)
      (hsize : w.size = v.size) (hknown : w ≠ .unknown) : Shows ids v w

theorem Shows.refl (hv : v.isUninitialized = false) (hne : v ≠ .unknown) : Shows ids v v :=
  .other hv hv rfl hne

theorem Shows.size (h : Shows ids v w) : w.size = v.size := by
  cases h with
  | marker => exact size_relabel
  | other _ _ hsize => exact hsize

theorem Shows.ne_unknown (h : Shows ids v w) : w ≠ .unknown := by
  cases h with
  | marker hv =>
    intro heq
    have hmarker : (v.relabel ids).isUninitialized = true := isUninitialized_relabel.trans hv
    rw [heq] at hmarker
    cases hmarker
  | other _ _ _ hknown => exact hknown

theorem uniform_shows (ids : String → Int → Int) : Uniform (Shows ids) where
  size := Shows.size
  known := Shows.ne_unknown
  same := Shows.refl

theorem Shows.isUninitialized (h : Shows ids v w) : w.isUninitialized = v.isUninitialized := by
  cases h with
  | marker => exact isUninitialized_relabel
  | other hv hw => rw [hv, hw]

theorem Shows.eq_relabel (h : Shows ids v w) (hv : v.isUninitialized = true) :
    w = v.relabel ids := by
  cases h with
  | marker => rfl
  | other hv' =>
    rw [hv] at hv'
    cases hv'

theorem Shows.of_below {h : Hierarchy} {d : ValueType} (hvw : Shows ids v w)
    (hbelow : h.Below v d) : Shows ids d w := by
  cases hvw with
  | marker hv =>
    rw [← hbelow.eq_of_not_isReference (isReference_of_isUninitialized hv)]
    exact .marker hv
  | other hv hw hsize hknown =>
    refine .other ?_ hw (hsize.trans hbelow.size) hknown
    rcases hbelow.eq_or_reference with rfl | ⟨-, name, rfl⟩
    · exact hv
    · rfl

end ValueType

open ValueType

namespace Frame

/-- Different markers of a frame have different numbers. -/
def Distinct (ids : String → Int → Int) (f : Frame) : Prop :=
  ∀ v v', f.Has v → f.Has v' → v.isUninitialized = true → v'.isUninitialized = true →
    v.relabel ids = v'.relabel ids → v = v'

/-- A frame with numbered objects goes with a frame of data flow. What data flow does not know of a
local variable may be anything. -/
structure Mirrors (ids : String → Int → Int) (f e : Frame) : Prop where
  stack : List.Forall₂ (Shows ids) f.stack.values e.stack.values
  locals : List.Forall₂ (fun v w => v = .unknown ∨ Shows ids v w) f.locals.toList e.locals.toList
  max : e.stack.max = f.stack.max

namespace Mirrors

variable {ids : String → Int → Int} {f e out : Frame} {v w : ValueType} {ins : Instruction}

theorem related (h : Mirrors ids f e) : Related (Shows ids) f e :=
  ⟨h.stack, h.locals, h.max⟩

theorem of_related (h : Related (Shows ids) f e) : Mirrors ids f e :=
  ⟨h.stack, h.locals, h.max⟩

theorem exists_of_related {x : Except InternalError Frame}
    (h : ∃ out', x = .ok out' ∧ Related (Shows ids) out out') :
    ∃ out', x = .ok out' ∧ Mirrors ids out out' := by
  obtain ⟨out', hx, hout⟩ := h
  exact ⟨out', hx, of_related hout⟩

theorem initializeObject (h : Mirrors ids f e) (hdistinct : f.Distinct ids)
    (hv : v.isUninitialized = true) (hhas : f.Has v) :
    Mirrors ids (f.initializeObject v) (e.initializeObject (v.relabel ids)) := by
  have hstep : ∀ a, f.Has a → ∀ b, Shows ids a b → Shows ids (if a = v then v.initialized else a)
      (if b = v.relabel ids then (v.relabel ids).initialized else b) := by
    intro a ha b hab
    by_cases hav : a = v
    · subst hav
      rw [if_pos rfl, if_pos (hab.eq_relabel hv), initialized_relabel]
      exact .refl rfl nofun
    · have hne : b ≠ v.relabel ids := by
        intro hb
        have hmarker : a.isUninitialized = true := by
          rw [← hab.isUninitialized, hb, isUninitialized_relabel, hv]
        rw [hab.eq_relabel hmarker] at hb
        exact hav (hdistinct a v ha hhas hmarker hv hb)
      rw [if_neg hav, if_neg hne]
      exact hab
  refine ⟨?_, ?_, h.max⟩
  · show List.Forall₂ _ (f.stack.values.map _) (e.stack.values.map _)
    rw [List.forall₂_map_left_iff, List.forall₂_map_right_iff]
    exact forall₂_imp_of_mem h.stack fun a ha => hstep a (.inl ha)
  · show List.Forall₂ _ (f.locals.map _).toList (e.locals.map _).toList
    rw [Array.toList_map, Array.toList_map, List.forall₂_map_left_iff, List.forall₂_map_right_iff]
    refine forall₂_imp_of_mem h.locals fun a ha b hab => ?_
    rcases hab with rfl | hab
    · have hne : unknown ≠ v := by
        rintro rfl
        cases hv
      exact .inl (if_neg hne)
    · exact .inr (hstep a (.inr (Array.mem_toList_iff.1 ha)) b hab)

end Mirrors

end Frame

namespace MethodContext

/-- What an instruction does to a frame with numbered objects. An allocation gives the object its
number. What comes out of an array of objects is an object that was initialized before it went
there; which one does not matter. -/
def runNumbered (c : MethodContext) (number : Int) (ins : Instruction) (f : Frame) :
    Except InternalError Frame :=
  match ins.action with
  | .allocate => do f.push (.uninitialized (← c.classOperand ins) number)
  | .arrayLoad .reference => f.replace 2 .null
  | _ => c.run ins f

end MethodContext

namespace Frame.Mirrors

variable {c : MethodContext} {ids : String → Int → Int} {f e out : Frame} {ins : Instruction}
  {number : Int}

/-- Whatever an array of objects says, its element is a reference. -/
theorem loadElement (h : Mirrors ids f e) (hact : ins.action = .arrayLoad .reference)
    (hcheck : f.checkArrayLoad ins .reference = .ok ())
    (hf : f.loadElement ins .reference = .ok out) :
    ∃ out', c.runNumbered number ins e = .ok out' ∧ Mirrors ids out out' := by
  simp only [Frame.loadElement, bind_eq_ok, Prod.exists, pop_eq_ok] at hf
  obtain ⟨index, _, ⟨_, hv, rfl⟩, array, _, ⟨vs, rfl, rfl⟩, hf⟩ := hf
  obtain ⟨index', array', ws, hw, -, hrest⟩ := h.related.popElement hv
  simp only [ne_eq, not_true_eq_false, if_false] at hf
  obtain ⟨-, got, hgot, haccesses⟩ := checkArrayLoad_eq_ok.1 hcheck
  rw [hv] at hgot
  cases hgot
  obtain ⟨t, ht, hpush⟩ : ∃ t, t.isReference = true ∧ (f.withValues vs).push t = .ok out := by
    rcases haccesses with rfl | ⟨target, htarget, href⟩
    · exact ⟨.null, rfl, by simpa using hf⟩
    · have hne : array ≠ .null := by
        rintro rfl
        cases htarget
      rw [if_neg hne, htarget] at hf
      rw [if_pos rfl] at href
      exact ⟨_, Hierarchy.isReference_ofFieldType href, hf⟩
  have hshows : Shows ids t .null := by
    cases t with
    | null | reference => exact .other rfl rfl rfl nofun
    | _ => cases ht
  obtain ⟨out', hpush', hout⟩ := hrest.push (uniform_shows ids) hshows hpush
  refine ⟨out', ?_, of_related hout⟩
  simp only [runNumbered, hact]
  exact bind_eq_ok.2 ⟨e.withValues ws, popN_eq_ok.2 ⟨by simp [hw], by simp [hw]⟩, hpush'⟩

theorem raise (h : Mirrors ids f e) {got : ValueType} (hgot : f.stack.values[0]? = some got)
    (href : got.isReference = true) (hf : f.raise = .ok out) :
    ∃ out', e.raise = .ok out' ∧ Mirrors ids out out' := by
  obtain ⟨w, hw, hshows⟩ := h.related.operand hgot
  obtain ⟨vs, hv⟩ := exists_cons_of_getElem?_zero hgot
  obtain ⟨ws, hw⟩ := exists_cons_of_getElem?_zero hw
  have hnot : got.isUninitialized = false := by
    cases got <;> simp_all [isReference, isUninitialized]
  have hsize : got.size = 1 := size_of_isObject (isObject_of_isReference href)
  have hthrown : Shows ids (if got = .null then .reference nullPointerClass else got)
      (if w = .null then .reference nullPointerClass else w) := by
    have hw' : w.isUninitialized = false := hshows.isUninitialized.trans hnot
    have hwsize : w.size = 1 := hshows.size.trans hsize
    refine .other ?_ ?_ ?_ ?_
    · split
      · rfl
      · exact hnot
    · split
      · rfl
      · exact hw'
    · split
      · split
        · rfl
        · rw [hsize]; rfl
      · split
        · rw [hwsize]; rfl
        · rw [hwsize, hsize]
    · split
      · simp
      · exact hshows.ne_unknown
  simp only [Frame.raise, pop_of_values hv, bind, Except.bind] at hf
  simp only [Frame.raise, pop_of_values hw, bind, Except.bind]
  have hcleared : Related (Shows ids)
      { f.withValues vs with stack := (f.withValues vs).stack.clear }
      { e.withValues ws with stack := (e.withValues ws).stack.clear } := h.related.withValues .nil
  exact exists_of_related (hcleared.push (uniform_shows ids) hthrown hf)

theorem runInvoke (h : Mirrors ids f e) (hdistinct : f.Distinct ids) {kind : InvokeKind}
    (hchecked : c.Checked ins) (hact : ins.action = .invoke kind)
    (hcheck : c.checkInvoke ins kind f = .ok ()) (hf : c.runInvoke ins kind f = .ok out) :
    ∃ out', c.runInvoke ins kind e = .ok out' ∧ Mirrors ids out out' := by
  refine exists_of_related (h.related.runInvoke (uniform_shows ids) hchecked hact hcheck ?_ hf)
  intro v w hmem hv hshows
  obtain rfl := hshows.eq_relabel hv
  exact ⟨isUninitializedThis_relabel, (h.initializeObject hdistinct hv (.inl hmem)).related⟩

/-- An instruction other than an allocation does the same to both frames. -/
theorem run (h : Mirrors ids f e) (hfits : c.Fits f) (hdistinct : f.Distinct ids)
    (hchecked : c.Checked ins) (hnew : ins.action ≠ .allocate)
    (hcheck : c.check ins f = .ok ()) (hf : c.run ins f = .ok out) :
    ∃ out', c.runNumbered number ins e = .ok out' ∧ Mirrors ids out out' := by
  have hvalues := (check_eq_ok.1 hcheck).2
  by_cases hload : ins.action = .arrayLoad .reference
  · simp only [MethodContext.run, MethodContext.checkValues, hload] at hf hvalues
    exact h.loadElement hload hvalues hf
  have hsame : c.runNumbered number ins e = c.run ins e := by
    unfold runNumbered
    split
    · next hact => exact absurd hact hnew
    · next hact => exact absurd hact hload
    · rfl
  rw [hsame]
  by_cases huniform : ins.action.isUniform = true
  · exact exists_of_related (h.related.run (uniform_shows ids) hfits huniform hcheck hf)
  cases hact : ins.action with
    simp only [MethodContext.run, MethodContext.checkValues, hact] at hf hvalues ⊢
  | invoke => exact h.runInvoke hdistinct hchecked hact hvalues hf
  | raise =>
    obtain ⟨got, hgot, href, -⟩ := checkRaise_eq_ok.1 hvalues
    exact h.raise hgot href hf
  | allocate => exact absurd hact hnew
  | arrayLoad access =>
    rw [hact] at huniform hload
    cases access <;> first | exact absurd rfl hload | exact absurd rfl huniform
  | _ =>
    rw [hact] at huniform
    exact absurd rfl huniform

theorem allocate (h : Mirrors ids f e) (hact : ins.action = .allocate)
    (hfresh : ¬f.HasSite ins.pos) (hf : c.run ins f = .ok out) : ∃ name out',
    c.runNumbered number ins e = .ok out' ∧
      out = f.withValues (.uninitialized name ins.pos :: f.stack.values) ∧
      Mirrors (renumber ids name ins.pos number) out out' := by
  simp only [MethodContext.run, hact, bind_eq_ok] at hf
  obtain ⟨name, hname, hf⟩ := hf
  have hkept : ∀ v, f.Has v → ∀ w, Shows ids v w →
      Shows (renumber ids name ins.pos number) v w := by
    intro v hv w hvw
    cases hvw with
    | marker hmarker =>
      have hne : v ≠ .uninitialized name ins.pos := by
        rintro rfl
        exact hfresh ⟨name, hv⟩
      rw [← relabel_renumber hne]
      exact .marker hmarker
    | other hv hw hsize hknown => exact .other hv hw hsize hknown
  have hrenumbered : Mirrors (renumber ids name ins.pos number) f e := by
    refine ⟨forall₂_imp_of_mem h.stack fun v hv => hkept v (.inl hv), ?_, h.max⟩
    refine forall₂_imp_of_mem h.locals fun v hv w hvw => ?_
    exact hvw.imp_right (hkept v (.inr (Array.mem_toList_iff.1 hv)) w)
  have hshows : Shows (renumber ids name ins.pos number) (.uninitialized name ins.pos)
      (.uninitialized name number) := by
    have hmarker : (uninitialized name ins.pos).isUninitialized = true := rfl
    have hshows : Shows (renumber ids name ins.pos number) _ _ := .marker hmarker
    rwa [renumber_self] at hshows
  obtain ⟨out', hpush, hout⟩ := hrenumbered.related.push (uniform_shows _) hshows hf
  refine ⟨name, out', ?_, ?_, of_related hout⟩
  · simp only [runNumbered, hact, hname, bind, Except.bind]
    exact hpush
  · exact (push_eq_ok.1 hf).2.2

end Frame.Mirrors

/-! ### Numbers -/

namespace Frame

variable {h : Hierarchy} {ids : String → Int → Int} {f g e : Frame} {n : Nat}

/-- The markers of a frame have different numbers, all of them below `n`. -/
structure Numbered (ids : String → Int → Int) (n : Nat) (f : Frame) : Prop where
  distinct : f.Distinct ids
  below : ∀ name site, f.Has (.uninitialized name site) → ids name site < n

theorem Numbered.of_has {n' : Nat} (hf : f.Numbered ids n) (hn : n ≤ n')
    (hhas : ∀ v, v.isUninitialized = true → g.Has v → f.Has v) : g.Numbered ids n' where
  distinct v v' hv hv' hmarker hmarker' :=
    hf.distinct v v' (hhas v hmarker hv) (hhas v' hmarker' hv') hmarker hmarker'
  below name site hmarker := by
    have hlt := hf.below name site (hhas _ rfl hmarker)
    omega

theorem Numbered.allocate (hf : f.Numbered ids n) {name : String} {site : Int}
    (hfresh : ¬f.HasSite site) :
    (f.withValues (.uninitialized name site :: f.stack.values)).Numbered
      (renumber ids name site n) (n + 1) := by
  have hhas : ∀ v, (f.withValues (.uninitialized name site :: f.stack.values)).Has v →
      v = .uninitialized name site ∨ f.Has v := by
    rintro v (hmem | hmem)
    · rcases List.mem_cons.1 hmem with rfl | hmem
      · exact .inl rfl
      · exact .inr (.inl hmem)
    · exact .inr (.inr hmem)
  have hother : ∀ v, f.Has v → v.relabel (renumber ids name site n) = v.relabel ids := by
    intro v hv
    refine relabel_renumber ?_
    rintro rfl
    exact hfresh ⟨name, hv⟩
  -- The number of the new object is that of no other.
  have hne : ∀ v, f.Has v → v.relabel ids ≠ .uninitialized name n := by
    intro v hv heq
    cases v with
    | uninitialized name' site' =>
      have hlt := hf.below name' site' hv
      simp only [relabel, uninitialized.injEq] at heq
      omega
    | _ => cases heq
  refine ⟨fun v v' hv hv' hmarker hmarker' heq => ?_, fun name' site' hmarker => ?_⟩
  · rcases hhas v hv with rfl | hv
    · rcases hhas v' hv' with rfl | hv'
      · rfl
      · rw [renumber_self, hother v' hv'] at heq
        exact absurd heq.symm (hne v' hv')
    · rcases hhas v' hv' with rfl | hv'
      · rw [renumber_self, hother v hv] at heq
        exact absurd heq (hne v hv)
      · rw [hother v hv, hother v' hv'] at heq
        exact hf.distinct v v' hv hv' hmarker hmarker' heq
  · rcases hhas _ hmarker with hself | hmarker
    · cases hself
      simp only [renumber, and_self, if_true]
      omega
    · have hlt := hf.below name' site' hmarker
      have heq := hother _ hmarker
      simp only [relabel, uninitialized.injEq, true_and] at heq
      omega

/-! ### Merges -/

/-- A local variable with the marker of an object counts as initialized in another frame. -/
def TakesForInitialized (f g : Frame) : Prop :=
  ∃ (j : Nat) (v w : ValueType), f.locals[j]? = some v ∧ v.isUninitialized = true ∧
    g.locals[j]? = some w ∧ w.isReference = true

/-- What goes with a frame goes with every frame that covers it, unless that takes an object for
initialized. -/
theorem Mirrors.of_covers (hfe : Mirrors ids f e) (hgf : g.Covers h f)
    (hmax : g.stack.max = f.stack.max) : Mirrors ids g e ∨ f.TakesForInitialized g := by
  by_cases htakes : f.TakesForInitialized g
  · exact .inr htakes
  refine .inl ⟨?_, ?_, hfe.max.trans hmax.symm⟩
  · exact forall₂_of_left hgf.stack hfe.stack fun _ _ _ hbelow hshows => hshows.of_below hbelow
  · refine List.forall₂_iff_get.2 ⟨hgf.locals.length_eq.symm.trans hfe.locals.length_eq, ?_⟩
    intro i hg he
    have hf : i < f.locals.toList.length := by
      rw [hgf.locals.length_eq]
      exact hg
    rcases hgf.locals.get hf hg with hunknown | hbelow | ⟨hmarker, hbelow⟩
    · exact .inl hunknown
    · rcases hfe.locals.get hf he with hunknown | hshows
      · rw [hunknown] at hbelow
        exact .inl (hbelow.eq_of_not_isReference rfl).symm
      · exact .inr (hshows.of_below hbelow)
    · refine absurd ⟨i, f.locals.toList.get ⟨i, hf⟩, g.locals.toList.get ⟨i, hg⟩, ?_, hmarker, ?_,
        ?_⟩ htakes
      · rw [← Array.getElem?_toList]
        exact List.getElem?_eq_getElem hf
      · rw [← Array.getElem?_toList]
        exact List.getElem?_eq_getElem hg
      · rcases hbelow.eq_or_reference with heq | ⟨-, name, heq⟩
        · exact heq ▸ rfl
        · exact heq ▸ rfl

end Frame

end Bytecode
