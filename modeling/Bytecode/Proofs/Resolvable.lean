import Bytecode.Proofs.Assignment
import Bytecode.Proofs.NamedFrames
import Bytecode.Proofs.Resolution
import Bytecode.Proofs.Termination

/-!
Methods whose classes are all there.

A verification asks about classes that the method names, about those of the frames and about
members. When the table holds all that the method names, and all that is above it, each of these
questions has an answer, except that a field may be looked for in an array type, which no table has
a class for. Methods of an array are looked for in the root class.

* `verify_resolvable`: then there is a verdict, unless an instruction names a field of an array;
* `getstatic_of_array_gets_no_verdict`: such an instruction.
-/
namespace Bytecode

open List MethodType ValueType

/-! ### What a method mentions -/

/-- The class of a declared type, or of its elements. -/
def FieldType.mentions (type : FieldType) : List String :=
  (ofFieldType type).named?.toList

/-- The classes of the arguments and of the result. -/
def MethodType.mentions (type : MethodType) : List String :=
  (type.args ++ type.result.toList).flatMap FieldType.mentions

/-- The classes that a descriptor mentions, whichever kind of member it describes. -/
def descriptorMentions (desc : String) : List String :=
  (FieldType.parse desc).toOption.toList.flatMap FieldType.mentions ++
    (MethodType.parse desc).toOption.toList.flatMap MethodType.mentions

/-- The class of a class constant, or of its elements. The empty name stands for no class. -/
def classMentions (name : String) : List String :=
  if name = "" then [] else (reference name).named?.toList

/-- The classes that an entry of a pool mentions. -/
def ConstantPool.mentions (p : ConstantPool) (i : Nat) : List String :=
  (p.className i).toOption.toList.flatMap classMentions ++
    (p.nameAndType i).toOption.toList.flatMap fun member => descriptorMentions member.2

/-- The class of a method, the core classes, and those that the constants of the class and the
descriptor of the method mention. The exception table refers to the constants. -/
def Class.mentions (owner : Class) (m : Method) : List String :=
  owner.name :: coreClasses ++ (List.range owner.pool.size).flatMap owner.pool.mentions ++
    descriptorMentions m.descriptor

section Mentions

variable {N : String → Prop}

theorem mem_toList_toOption {ε α : Type} {r : Except ε α} {a : α} (h : r = .ok a) :
    a ∈ r.toOption.toList := by
  rw [h]
  exact mem_singleton_self a

theorem FieldType.over_of_mentions {type : FieldType} (h : ∀ name ∈ type.mentions, N name) :
    (ofFieldType type).Over N :=
  fun name hname => h name (Option.mem_toList.2 hname)

theorem MethodType.over_of_mentions {type : MethodType} (h : ∀ name ∈ type.mentions, N name) :
    type.Over N where
  args arg harg := FieldType.over_of_mentions fun name hname =>
    h name (mem_flatMap.2 ⟨arg, mem_append_left _ harg, hname⟩)
  result result hresult := FieldType.over_of_mentions fun name hname =>
    h name (mem_flatMap.2
      ⟨result, mem_append_right _ (Option.mem_toList.2 hresult), hname⟩)

theorem FieldType.over_of_descriptor {desc : String} {type : FieldType}
    (h : ∀ name ∈ descriptorMentions desc, N name) (htype : FieldType.parse desc = .ok type) :
    (ofFieldType type).Over N :=
  FieldType.over_of_mentions fun name hname => h name (mem_append_left _
    (mem_flatMap.2 ⟨type, mem_toList_toOption htype, hname⟩))

theorem MethodType.over_of_descriptor {desc : String} {type : MethodType}
    (h : ∀ name ∈ descriptorMentions desc, N name) (htype : parse desc = .ok type) : type.Over N :=
  over_of_mentions fun name hname => h name (mem_append_right _
    (mem_flatMap.2 ⟨type, mem_toList_toOption htype, hname⟩))

theorem ConstantPool.exists_of_get {p : ConstantPool} {i : Int} {entry : Constant}
    (h : p.get i = .ok entry) : ∃ n : Nat, i = n ∧ n < p.size := by
  unfold get at h
  split at h
  · next found hentry =>
    cases i with
    | ofNat n =>
      refine ⟨n, rfl, ?_⟩
      by_contra hge
      rw [ entry?, Array.getElem?_eq_none (Nat.le_of_not_lt hge)] at hentry
      cases hentry
    | negSucc n => cases hentry
  · cases h

theorem ConstantPool.over_of_mentions {p : ConstantPool}
    (h : ∀ name ∈ (List.range p.size).flatMap p.mentions, N name) : p.Over N := by
  have hentry : ∀ {i : Int} {entry}, p.get i = .ok entry →
      ∃ n : Nat, i = n ∧ ∀ name ∈ p.mentions n, N name := by
    intro i entry hget
    obtain ⟨n, rfl, hn⟩ := exists_of_get hget
    exact ⟨n, rfl, fun name hname => h name (mem_flatMap.2 ⟨n, mem_range.2 hn, hname⟩)⟩
  have hmember : ∀ {i name desc}, p.nameAndType i = .ok (name, desc) →
      ∀ mentioned ∈ descriptorMentions desc, N mentioned := by
    intro i name desc hmember mentioned hmentioned
    obtain ⟨texts, htexts, -⟩ := bind_eq_ok.1 hmember
    obtain ⟨entry, hget, -⟩ := bind_eq_ok.1 htexts
    obtain ⟨n, rfl, hn⟩ := hentry hget
    exact hn mentioned (mem_append_right _
      (mem_flatMap.2 ⟨(name, desc), mem_toList_toOption hmember, hmentioned⟩))
  refine ⟨fun {i name} hclass hne element helement => ?_, fun hdesc htype => ?_,
    fun hdesc htype => ?_⟩
  · obtain ⟨text, htext, -⟩ := bind_eq_ok.1 hclass
    obtain ⟨entry, hget, -⟩ := bind_eq_ok.1 htext
    obtain ⟨n, rfl, hn⟩ := hentry hget
    refine hn element (mem_append_left _ (mem_flatMap.2 ⟨name, mem_toList_toOption hclass, ?_⟩))
    rw [classMentions, if_neg hne]
    exact Option.mem_toList.2 helement
  · exact FieldType.over_of_descriptor (hmember hdesc) htype
  · exact over_of_descriptor (hmember hdesc) htype

end Mentions

namespace ClassTable

/-- No class has the descriptor of an array as its name, the superclasses of no class go round in a
circle, and the root class has none. -/
structure IsHierarchy (t : ClassTable) : Prop where
  names : ∀ cls ∈ t.classes, namesArray cls.name = false
  acyclic : ∀ name, ¬Relation.TransGen t.Extends name name
  rooted : t.Rooted

/-- A table holds all that a method mentions, and all that is above it. -/
def Resolves (t : ClassTable) (owner : Class) (m : Method) : Prop :=
  ∀ name ∈ owner.mentions m, t.Holds name

variable {t : ClassTable} {owner : Class} {m : Method} {name desc : String}

/-! ### Names -/

theorem IsHierarchy.find?_of_array (ht : t.IsHierarchy) (hname : namesArray name = true) :
    t.find? name = none := by
  cases hfind : t.find? name with
  | none => rfl
  | some cls =>
    obtain ⟨hmem, rfl⟩ := mem_of_find? hfind
    rw [ht.names cls hmem] at hname
    cases hname

theorem IsHierarchy.over_of_holds (ht : t.IsHierarchy) (h : t.Holds name) :
    (reference name).Over t.Holds := by
  have hname : namesArray name = false := by
    obtain ⟨cls, hfind⟩ := h.exists_find?
    obtain ⟨hmem, rfl⟩ := mem_of_find? hfind
    exact ht.names cls hmem
  exact (over_class hname).2 h

theorem IsHierarchy.joinsOver (ht : t.IsHierarchy) (hroot : t.Holds objectClass) :
    t.hierarchy.JoinsOver t.Holds := by
  intro a b d ha hb hd
  obtain ⟨d', hd', hheld⟩ := ha.exists_commonSuperclass ht.acyclic hb hroot
  cases hd.symm.trans hd'
  exact ht.over_of_holds hheld

theorem IsHierarchy.resolveField_of_array (ht : t.IsHierarchy) (hname : namesArray name = true)
    (field : String) : t.resolveField name field desc = .error (.classNotFound name) := by
  have hfind := ht.find?_of_array hname
  have hsearch : t.search (fun _ => none) (fun c => (c.field? field desc).map (·, c)) [name] [] =
      .error (.classNotFound name) := by
    rw [search, dif_neg (by simp)]
    dsimp only
    split
    · rfl
    · next cls hfound => cases hfind.symm.trans hfound
  rw [resolveField, hsearch]
  rfl

end ClassTable

/-! ### Questions without an answer -/

namespace MethodContext

variable {t : ClassTable} {c : MethodContext} {g : FlowGraph} {code : Array Instruction}

/-- Of the questions that concern what a table holds, only one has no answer: what is the field of
an array? -/
theorem field_of_concerns (ht : t.IsHierarchy) (hh : c.hierarchy = t.hierarchy)
    (h : Ready c g code) (hc : c.Over t.Holds) {e : InternalError}
    (he : e.Concerns c t.Holds code) :
    ∃ ins ∈ code, ∃ access ref, ins.action = .field access ∧
      c.pool.memberRef ins.index = .ok ref ∧ namesArray ref.owner = true ∧
      e = .memberOperand ins (.classNotFound ref.owner) := by
  have hroot : t.Holds objectClass := hc.core _ (by decide)
  unfold InternalError.Concerns at he
  rw [hh] at he
  split at he
  · -- The class is there.
    obtain ⟨hname, hlookup⟩ := he
    obtain ⟨cls, hfind⟩ := hname.exists_find?
    cases hlookup.symm.trans (ClassTable.lookup_eq_ok.2 hfind)
  · -- Its superclasses can be told.
    obtain ⟨hsub, super, hsubclass⟩ := he
    obtain ⟨r, hr⟩ := hsub.exists_isSubclassOf ht.acyclic super
    cases hsubclass.symm.trans hr
  · -- There is a nearest common one.
    obtain ⟨ha, hb, hcommon⟩ := he
    obtain ⟨d, hd, -⟩ := ha.exists_commonSuperclass ht.acyclic hb hroot
    cases hcommon.symm.trans hd
  · next ins cause =>
    obtain ⟨hmissing, hfield | ⟨owner, name, desc, howner, hmethod | hmethod⟩⟩ := he
    · obtain ⟨access, ref, type, hins, hact, hoperand, hfield⟩ := hfield
      have hchecked : c.Checked ins := h.prepared.operands ins hins
      obtain ⟨ref', type', element, hoperand', hclass⟩ := hchecked.field hact
      cases hoperand.symm.trans hoperand'
      have hover := (hc.fieldOperand hoperand).2 hclass
      rw [(classType_eq_ok hclass).1] at hover
      simp only [fieldOperand, bind_eq_ok, mapError_eq_ok, pure_eq_ok, Prod.mk.injEq] at hoperand
      obtain ⟨ref, href, _, -, rfl, rfl⟩ := hoperand
      by_cases hname : namesArray ref.owner = true
      · cases hfield.symm.trans (ht.resolveField_of_array hname ref.name)
        exact ⟨ins, hins, access, ref, hact, href, hname, rfl⟩
      · have hheld := (over_class (by simpa using hname)).1 hover
        rw [hheld.resolveField_fails cause hfield] at hmissing
        cases hmissing
    · rw [howner.resolveMethod_fails ht.acyclic cause hmethod] at hmissing
      cases hmissing
    · rw [howner.resolveInterfaceMethod_fails ht.acyclic hroot cause hmethod] at hmissing
      cases hmissing
  · cases he

/-- Data flow fails with a rejection or at a field of an array. -/
theorem field_of_solve (ht : t.IsHierarchy) (hh : c.hierarchy = t.hierarchy) (h : Ready c g code)
    (hc : c.Over t.Holds) {s : FlowState} {e : InternalError}
    (hsolve : c.solve g = (s, .error (.internal e))) :
    ∃ ins ∈ code, ∃ access ref, ins.action = .field access ∧
      c.pool.memberRef ins.index = .ok ref ∧ namesArray ref.owner = true ∧
      e = .memberOperand ins (.classNotFound ref.owner) := by
  have hjoin : c.hierarchy.JoinsOver t.Holds := by
    rw [hh]
    exact ht.joinsOver (hc.core _ (by decide))
  obtain ⟨s₀, hbreaks⟩ := breaks_of_solve h hh ht.rooted hsolve
  exact field_of_concerns ht hh h hc (breaks_concerns h hc (over_invariant h hc hjoin) hbreaks)

end MethodContext

/-! ### Verdicts -/

section Verification

variable {t : ClassTable} {options : VerifyOptions} {runId : String} {owner : Class} {m : Method}

theorem Method.parse_of_prepare {pool : ConstantPool} {p : PreparedCode}
    (h : m.prepare pool = .ok p) : parse m.descriptor = .ok p.type := by
  simp only [prepare, bind_eq_ok, mapError_eq_ok, ite_error_bind_eq_ok, pure_eq_ok] at h
  obtain ⟨type, htype, -, -, -, code, -, -, -, -, -, rfl⟩ := h
  exact htype

theorem ClassTable.Resolves.over (ht : t.IsHierarchy) (h : t.Resolves owner m) {p : PreparedCode}
    (hp : m.prepare owner.pool = .ok p) : MethodContext.Over t.Holds ⟨t, owner, m, p.type⟩ := by
  have hitself : t.Holds owner.name := h _ (by simp [Class.mentions])
  have hpool : owner.pool.Over t.Holds := ConstantPool.over_of_mentions fun name hname =>
    h name (mem_append_left _ (mem_append_right _ hname))
  exact
    { owner := hitself
      receiver := ht.over_of_holds hitself
      pool := hpool
      type := over_of_descriptor
        (fun name hname => h name (by simp [Class.mentions, hname])) (Method.parse_of_prepare hp)
      core := fun name hname => h name (by simp [Class.mentions, hname]) }

theorem status_of_verify {h : Hierarchy} {verdict : Verdict}
    (hverdict : verify h options runId owner m = .ok verdict) :
    verdict.status = .accepted ∨ verdict.status = .rejected ∨ verdict.status = .notYet := by
  unfold verify verifyTraced at hverdict
  simp only at hverdict
  split at hverdict
  · cases hverdict
    exact .inl rfl
  · split at hverdict
    · cases hverdict
      exact .inr (.inr rfl)
    · split at hverdict
      · cases hverdict
      · cases hverdict
        exact .inr (.inl rfl)
      · split at hverdict
        · cases hverdict
          exact .inl rfl
        · cases hverdict
        · cases hverdict
          exact .inr (.inl rfl)

end Verification

/-- When a table holds all that a method names, the method gets a verdict, or one of its
instructions names a field of an array type and the verification fails because there is no class of
that name. -/
theorem verify_resolvable (t : ClassTable) (ht : t.IsHierarchy) (options : VerifyOptions)
    (runId : String) (owner : Class) (m : Method) (hresolves : t.Resolves owner m) :
    (∃ verdict, verify t options runId owner m = .ok verdict ∧
      (verdict.status = .accepted ∨ verdict.status = .rejected ∨ verdict.status = .notYet)) ∨
    ∃ prepared ins access ref, m.prepare owner.pool = .ok prepared ∧ ins ∈ prepared.code ∧
      ins.action = .field access ∧ owner.pool.memberRef ins.index = .ok ref ∧
      namesArray ref.owner = true ∧
      verify t options runId owner m = .error (.memberOperand ins (.classNotFound ref.owner)) := by
  cases hverify : verify t options runId owner m with
  | ok verdict => exact .inl ⟨verdict, rfl, status_of_verify hverify⟩
  | error e =>
    obtain ⟨prepared, hprepared, hg | ⟨g, s, hg, hsolve⟩⟩ := verify_error hverify
    · exact absurd hg (build_ne_internal hprepared _ e)
    · obtain ⟨ins, hins, access, ref, hact, href, hname, rfl⟩ := MethodContext.field_of_solve ht rfl
        (.of_build hprepared hg) (hresolves.over ht hprepared) hsolve
      exact .inr ⟨prepared, ins, access, ref, hprepared, hins, hact, href, hname, rfl⟩

/-- A class that mentions arrays of two classes. -/
def kennelKeeper : Class :=
  { plainClass with
    pool := ((ConstantPool.empty.addClass "[Lapp/Dog;").1.addClass "[Lapp/Cat;").1 }

/-- The core classes and the pets. -/
def keeperTable : ClassTable :=
  ⟨petTable.classes ++ kennelKeeper ::
    coreClasses.tail.map fun name => { name, super := some objectClass }⟩

/-- An element of an array of dogs or of an array of cats. -/
def pickPet : Method where
  name := "pickPet"
  descriptor := "(I)Lapp/Pet;"
  access := .staticBit
  maxStack := 2
  maxLocals := 1
  -- iload_0, ifeq 11; aconst_null, checkcast #2, goto 15; aconst_null, checkcast #4;
  -- iconst_0, aaload, areturn
  code := [0x1a, 0x99, 0x00, 0x0a, 0x01, 0xc0, 0x00, 0x02, 0xa7, 0x00, 0x07, 0x01, 0xc0, 0x00, 0x04,
    0x03, 0x32, 0xb0]

theorem isHierarchy_keeperTable : keeperTable.IsHierarchy where
  names := by decide
  acyclic := ClassTable.acyclic_of_rank
    (fun name => if name = objectClass then 0 else if name = "app/Pet" then 1 else 2) (by decide)
  rooted := by decide

theorem holds_keeperTable {name : String} (h : keeperTable.has name = true) :
    keeperTable.Holds name :=
  ClassTable.holds_of_closed (by decide) h

theorem verify_resolvable_pickPet : keeperTable.IsHierarchy ∧
    keeperTable.Resolves kennelKeeper pickPet ∧
    ∃ verdict, verify keeperTable {} "" kennelKeeper pickPet = .ok verdict ∧
      (verdict.status = .accepted ∨ verdict.status = .rejected ∨ verdict.status = .notYet) := by
  have hresolves : keeperTable.Resolves kennelKeeper pickPet := fun name hname =>
    holds_keeperTable ((show ∀ name ∈ kennelKeeper.mentions pickPet, keeperTable.has name = true by
      decide +kernel) name hname)
  have hok : (verify keeperTable {} "" kennelKeeper pickPet).toOption.isSome = true := by
    decide +kernel
  refine ⟨isHierarchy_keeperTable, hresolves, ?_⟩
  refine (verify_resolvable keeperTable isHierarchy_keeperTable {} "" kennelKeeper pickPet
    hresolves).resolve_right ?_
  rintro ⟨prepared, ins, access, ref, -, -, -, -, -, herror⟩
  rw [herror] at hok
  cases hok

/-- A class that mentions a field of an array. -/
def lengthReader : Class :=
  { plainClass with pool := (ConstantPool.empty.addFieldref "[I" "length" "I").1 }

/-- A read of that field. -/
def readLength : Method where
  name := "readLength"
  descriptor := "()V"
  access := .staticBit
  maxStack := 1
  maxLocals := 0
  -- getstatic #6, pop, return
  code := [0xb2, 0x00, 0x06, 0x57, 0xb1]

/-- The table holds all that the method mentions, since the elements are numbers, and yet there is
no verdict. -/
theorem getstatic_of_array_gets_no_verdict : keeperTable.IsHierarchy ∧
    keeperTable.Resolves lengthReader readLength ∧
    ∀ verdict, verify keeperTable {} "" lengthReader readLength ≠ .ok verdict := by
  have hresolves : keeperTable.Resolves lengthReader readLength := fun name hname =>
    holds_keeperTable ((show ∀ name ∈ lengthReader.mentions readLength,
      keeperTable.has name = true by decide +kernel) name hname)
  -- The search for the field is over before it looks at a class, so it need not be run.
  have hsearch : keeperTable.hierarchy =
      { keeperTable.hierarchy with
        resolveField := fun owner name desc =>
          if namesArray owner then .error (.classNotFound owner)
          else keeperTable.resolveField owner name desc } := by
    have hfield : keeperTable.resolveField = fun owner name desc =>
        if namesArray owner then .error (.classNotFound owner)
        else keeperTable.resolveField owner name desc := by
      funext owner name desc
      split
      · next howner => exact isHierarchy_keeperTable.resolveField_of_array howner name
      · rfl
    rw [← hfield]
    rfl
  have hnone : (verify keeperTable {} "" lengthReader readLength).toOption.isSome = false := by
    rw [hsearch]
    decide +kernel
  refine ⟨isHierarchy_keeperTable, hresolves, fun verdict hok => ?_⟩
  rw [hok] at hnone
  cases hnone

end Bytecode
