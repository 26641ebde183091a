import Bytecode.Proofs.ClassTree
import Bytecode.Proofs.NamedFrames
import Bytecode.Proofs.Paths
import Bytecode.Proofs.SmallerRuns
import Bytecode.Proofs.WellFormed

/-!
What data flow accepts can be run along every path.

Along a path the stored frames stand for the frames of a run that merges nothing, so the checks that
the stored frames have passed also pass on that run. This is said of methods without allocations and
without loads of longs and doubles, since objects that wait for a constructor and unusable second
halves are not kept apart by the order of frames.

Main statement: `accepted_path_runs`, no path of an accepted method is refused.
-/
namespace Bytecode

open FlowGraph MethodContext ValueType

/-- Does an instruction load a value of two slots? -/
def Action.loadsWide : Action → Bool
  | .load kind _ => kind.size = 2
  | _ => false

namespace MethodContext

variable {c : MethodContext} {g : FlowGraph} {code : Array Instruction} {s : FlowState}
  {legs : List Leg} {p : Point} {k : CallKey} {f stored carried out : Frame} {ins : Instruction}

/-- A method other than a constructor that allocates nothing, loads no long or double, and whose
types name classes. -/
structure Plain (c : MethodContext) (code : Array Instruction) : Prop where
  names : NamesClasses c code
  notConstructor : c.method.isConstructor = false
  noAllocation : ∀ ins ∈ code, ins.action ≠ .allocate
  noWideLoad : ∀ ins ∈ code, ins.action.loadsWide = false

instance (c : MethodContext) (code : Array Instruction) : Decidable (Plain c code) :=
  decidable_of_iff (NamesClasses c code ∧ c.method.isConstructor = false ∧
      (∀ ins ∈ code, ins.action ≠ .allocate) ∧ ∀ ins ∈ code, ins.action.loadsWide = false)
    ⟨fun ⟨h₁, h₂, h₃, h₄⟩ => ⟨h₁, h₂, h₃, h₄⟩, fun ⟨h₁, h₂, h₃, h₄⟩ => ⟨h₁, h₂, h₃, h₄⟩⟩

theorem Plain.size_of_load (h : Plain c code) (hins : ins ∈ code) (kind : Kind) (i : Option Nat)
    (hact : ins.action = .load kind i) : kind.size = 1 := by
  have hwide := h.noWideLoad ins hins
  rw [hact, Action.loadsWide, decide_eq_false_iff_not] at hwide
  rcases kind with n | _
  · cases n <;> first | rfl | exact absurd rfl hwide
  · rfl

/-! ### The initial frame -/

theorem declared_initialFrame (hplain : Plain c code)
    (hdims : ∀ arg ∈ c.type.args, arg.dims ≤ 255) (h : c.initialFrame = .ok f) : f.Declared := by
  have hinitial := initial_of_initialFrame h
  have hstarts : c.startsUninitialized = false := by
    simp [startsUninitialized, hplain.notConstructor]
  refine ⟨by simp [hinitial.values], fun v hv => ?_, hinitial.flag.trans hstarts⟩
  rcases hinitial.locals v hv with rfl | rfl | ⟨arg, harg, rfl⟩
  · exact declared_of_ne rfl (by simp)
  · simpa [hstarts] using declared_of_className hplain.names.owner
  · exact (hplain.names.arguments arg harg).declared (Nat.le_succ_of_le (hdims arg harg))

/-! ### Handlers -/

theorem declared_caughtType (h : Ready c g code) (hplain : Plain c code) {guard : Guard}
    (hguard : guard ∈ g.guards) : guard.caughtType.Declared := by
  rcases caughtType_cases h.built hguard with heq | ⟨handler, hmem, name, hne, hname, heq⟩
  · rw [heq]
    exact declared_of_className (by decide)
  · obtain ⟨type, htype, hnamed⟩ :=
      (hplain.names.handlers handler hmem name (toOption_eq_some.2 hname)).resolve_left hne
    have hparse := toOption_eq_some.1 htype
    rw [heq, ← (ofClassRef_eq_ok (map_eq_ok.2 ⟨type, hparse, rfl⟩)).1]
    exact hnamed.declared (Nat.le_succ_of_le (FieldType.dims_le_of_parseClass hparse))

/-! ### Along a path -/

/-- A frame that covers one that stands for another stands for the other, too. -/
theorem StandsFor.cover {next : Frame} (h : c.StandsFor stored f)
    (hcovers : next.Covers c.hierarchy stored) (hmax : next.stack.max = stored.stack.max) :
    c.StandsFor next f where
  covers := h.covers.trans hcovers
  declared := h.declared
  max := h.max.trans hmax.symm

theorem declared_caught (hf : f.Declared) (hout : out.Declared) {guard : Guard}
    (hguard : guard.caughtType.Declared) : (caughtFrame guard f out).Declared where
  stack := by simpa [caughtFrame] using hguard
  locals := hout.locals
  thisUninitialized := by simp [caughtFrame, hf.thisUninitialized, hout.thisUninitialized]

/-- What a turn carries on from a stored frame stands for what it carries on from a smaller one. -/
theorem StandsFor.turn {input out' : Frame} {turn : Turn} {q : Point}
    (hs : c.hierarchy.Sound) (h : Ready c g code) (hplain : Plain c code) (hp : p.node < g.size)
    (hstands : c.StandsFor input f) (hfits : c.Fits input)
    (hcheck : c.check (g.instruction p.node) input = .ok ())
    (hrun : c.run (g.instruction p.node) input = .ok out)
    (hcheck' : c.check (g.instruction p.node) f = .ok ())
    (hrun' : c.run (g.instruction p.node) f = .ok out') (hfollow : g.follow p turn = some q)
    (hcarries : turn.frame input out = .ok carried) :
    ∃ f', turn.frame f out' = .ok f' ∧ c.StandsFor carried f' := by
  have hmem := h.instruction_mem hp
  have hdeclared := declared_run hs hstands.declared (h.checked hp) (hplain.names.operands _ hmem)
    (hplain.noAllocation _ hmem) hcheck' hrun'
  have hblurred := hstands.blurred hfits
  have hmarked : f.ClassMarked := fun v hv hmarker => by
    rw [(hv.elim (hstands.declared.stack v) (hstands.declared.locals v)).initialized] at hmarker
    cases hmarker
  obtain ⟨_, heq, hlocals, hstack⟩ :=
    hblurred.run_locals hs.classesOnly hmarked hfits (h.checked hp) hcheck hrun
  cases heq.symm.trans hrun'
  rcases frame_eq_ok.1 hcarries with ⟨hturn, rfl⟩ | ⟨guard, rfl, hroom, rfl⟩
  · exact ⟨out', frame_eq_ok.2 (.inl ⟨hturn, rfl⟩),
      .of_blurred (hstack (action_ne_raise h hfollow hturn)) hdeclared⟩
  · simp only [FlowGraph.follow, Option.ite_none_right_eq_some] at hfollow
    have hguard := declared_caughtType h hplain (CodeEdges.mem_guards hfollow.1)
    exact ⟨_, frame_eq_ok.2 (.inr ⟨guard, rfl, hlocals.max ▸ hroom, rfl⟩),
      .of_blurred (.caught hlocals guard) (declared_caught hstands.declared hdeclared hguard)⟩

/-- An instruction can be run on a frame that a stored frame stands for. -/
theorem StandsFor.proceeds (hs : c.hierarchy.Sound) (h : Solved c g code s)
    (hplain : Plain c code) (hstored : s.inputs.get? p.node k = some stored)
    (hstands : c.StandsFor stored f) :
    c.check (g.instruction p.node) f = .ok () ∧ c.Proceeds (c.run (g.instruction p.node) f) := by
  have hp := h.lt hstored
  obtain ⟨hcheck, -⟩ := h.fixed.executed _ _ _ hstored
  have hcheck' := check_of_standsFor hs hstands
    (hplain.size_of_load (h.ready.instruction_mem hp)) hcheck
  have hfits := h.fits (.inl hstored)
  exact ⟨hcheck', run_proceeds ((hstands.blurred hfits).fits (Hierarchy.uniform_blurs _) hfits)
    (h.ready.checked hp) hcheck'⟩

/-- The stored frames along a path stand for the frames of a run along it. -/
theorem standsFor_along (hs : c.hierarchy.Sound) (h : Solved c g code s) (hplain : Plain c code)
    (hdims : ∀ arg ∈ c.type.args, arg.dims ≤ 255) (halong : Along c g s legs p k carried stored) :
    ∃ f, c.pathFrame g legs = .ok f ∧ c.StandsFor stored f := by
  induction halong with
  | @start f first initial hfirst covers =>
    obtain ⟨f', hf', hfits⟩ := initialFrame_proceeds h.ready
    cases initial.symm.trans hf'
    refine ⟨f, by simp [pathFrame, initial], covers, declared_initialFrame hplain hdims initial, ?_⟩
    rw [hfits.max, (h.fits (.inl hfirst)).max]
  | @turn before p q k k' turn _ input out carried next along check run output follow _ carries hnext
      covers ih =>
    obtain ⟨f, hf, hstands⟩ := ih
    obtain ⟨hcheck, out', hrun', -⟩ := hstands.proceeds hs h hplain along.stored
    obtain ⟨f', hf', hcarried⟩ :=
      hstands.turn hs h.ready hplain (h.lt along.stored) (h.fits (.inl along.stored)) check run
        hcheck hrun' follow carries
    refine ⟨f', by simp [pathFrame, hf, hcheck, hrun', hf', known], hcarried.cover covers ?_⟩
    rw [max_of_frame carries, (h.fits (.inl hnext)).max, (h.fits (.inr output)).max]

end MethodContext

theorem dims_le_of_prepare {m : Method} {pool : ConstantPool} {prepared : PreparedCode}
    (h : m.prepare pool = .ok prepared) : ∀ arg ∈ prepared.type.args, arg.dims ≤ 255 := by
  simp only [Method.prepare, bind_eq_ok, mapError_eq_ok, ite_error_bind_eq_ok, pure_eq_ok] at h
  obtain ⟨type, htype, -, -, -, code, -, -, -, -, -, rfl⟩ := h
  exact (MethodType.dims_le_of_parse htype).1

/-- Over a well-formed table, let a method be accepted that is no constructor, allocates nothing and
loads no long or double, and whose types name classes, as they do if the table has them. Then along
every path through its graph each instruction passes its checks and can be run on what the one
before it left, with no merge in between, up to and including the instruction where the path
ends. -/
theorem accepted_path_runs (t : ClassTable) (ht : t.WellFormed) (options : VerifyOptions)
    (runId : String) (owner : Class) (m : Method) (verdict : Verdict) (prepared : PreparedCode)
    (g : FlowGraph) (hprepared : m.prepare owner.pool = .ok prepared)
    (hg : FlowGraph.build prepared.code m.handlers owner.pool options.strict = .ok g)
    (hcode : m.hasCode = true) (hverdict : verify t options runId owner m = .ok verdict)
    (haccepted : verdict.status = .accepted)
    (hplain : MethodContext.Plain ⟨t, owner, m, prepared.type⟩ prepared.code)
    (legs : List Leg) (p : Point) (hwalk : g.walk legs = some p) :
    ∃ f, pathFrame ⟨t, owner, m, prepared.type⟩ g legs = .ok f ∧
      check ⟨t, owner, m, prepared.type⟩ (g.instruction p.node) f = .ok () ∧
      ∃ out, run ⟨t, owner, m, prepared.type⟩ (g.instruction p.node) f = .ok out := by
  obtain ⟨s, -, hsolved⟩ := solved_of_accepted hprepared hg hcode hverdict haccepted
  obtain ⟨k, carried, stored, calls, halong, -⟩ := exists_along hsolved hwalk
  obtain ⟨f, hf, hstands⟩ := standsFor_along ht.sound hsolved hplain
    (dims_le_of_prepare hprepared) halong
  obtain ⟨hcheck, out, hout, -⟩ := hstands.proceeds ht.sound hsolved hplain halong.stored
  exact ⟨f, hf, hcheck, out, hout⟩

/-- Classes with two that have a superclass in common. -/
def zooTable : ClassTable :=
  ⟨plainTable.classes ++ [{ name := "app/Animal", super := some objectClass },
    { name := "app/Dog", super := some "app/Animal" },
    { name := "app/Cat", super := some "app/Animal" }]⟩

/-- Two values that meet in a variable before a subroutine call, one from an array. -/
def pickAnimal : Method where
  name := "pickAnimal"
  descriptor := "(ILapp/Dog;[Lapp/Cat;)Lapp/Animal;"
  access := .staticBit
  maxStack := 2
  maxLocals := 5
  -- iload_0, ifeq 8, aload_1, goto 11; aload_2, iconst_0, aaload; astore_3, jsr 17, aload_3, areturn;
  -- astore 4, ret 4; athrow
  code := [0x1a, 0x99, 0x00, 0x07, 0x2b, 0xa7, 0x00, 0x06, 0x2c, 0x03, 0x32, 0x4e, 0xa8, 0x00, 0x05,
    0x2d, 0xb0, 0x3a, 0x04, 0xa9, 0x04, 0xbf]
  handlers := [{ start := 8, stop := 11, target := 21, catchIndex := 0 }]

/-- The way through the array and the subroutine to the end. -/
def throughArray : List Leg :=
  [⟨9, .flow 10⟩, ⟨12, .back⟩, ⟨11, .flow 12⟩, ⟨8, .flow 11⟩, ⟨7, .flow 8⟩, ⟨6, .flow 7⟩,
    ⟨5, .flow 6⟩, ⟨4, .flow 5⟩, ⟨1, .flow 4⟩, ⟨0, .flow 1⟩]

theorem accepted_path_runs_throughArray : ∃ prepared g f out,
    pickAnimal.prepare plainClass.pool = .ok prepared ∧
    FlowGraph.build prepared.code pickAnimal.handlers plainClass.pool true = .ok g ∧
    g.walk throughArray = some ⟨10, []⟩ ∧
    pathFrame ⟨zooTable, plainClass, pickAnimal, prepared.type⟩ g throughArray =
      .ok f ∧
    check ⟨zooTable, plainClass, pickAnimal, prepared.type⟩ (g.instruction 10) f =
      .ok () ∧
    run ⟨zooTable, plainClass, pickAnimal, prepared.type⟩ (g.instruction 10) f =
      .ok out := by
  obtain ⟨prepared, hprepared, g, hg, hwalk, hplain⟩ : ∃ prepared,
      pickAnimal.prepare plainClass.pool = .ok prepared ∧
      ∃ g, FlowGraph.build prepared.code pickAnimal.handlers plainClass.pool true = .ok g ∧
      g.walk throughArray = some ⟨10, []⟩ ∧
      MethodContext.Plain ⟨zooTable, plainClass, pickAnimal, prepared.type⟩ prepared.code := by
    decide +kernel
  obtain ⟨verdict, hverdict, haccepted⟩ : ∃ verdict,
      verify zooTable {} "" plainClass pickAnimal = .ok verdict ∧ verdict.status = .accepted := by
    decide +kernel
  obtain ⟨f, hf, hcheck, out, hout⟩ := accepted_path_runs zooTable (by decide +kernel) {} ""
    plainClass pickAnimal verdict prepared g hprepared hg rfl hverdict haccepted hplain throughArray
    ⟨10, []⟩ hwalk
  exact ⟨prepared, g, f, out, hprepared, hg, hwalk, hf, hcheck, hout⟩

/-! ### Interfaces that list classes -/

/-- A class with an instance field. -/
def agedClass : Class where
  name := "app/Pet"
  super := some objectClass
  fields := [⟨"age", "I", .publicBit⟩]

/-- An interface that lists a class among its interfaces, and so comes by a field. -/
def listingClass : Class where
  name := "app/Named"
  super := some objectClass
  interfaces := ["app/Pet"]
  access := .interfaceBit

/-- A class with the field of that interface in its pool. -/
def pickClass : Class :=
  { plainClass with pool := (ConstantPool.empty.addFieldref "app/Named" "age" "I").1 }

def listingTable : ClassTable :=
  ⟨[{ name := objectClass, super := none }, { name := throwableClass, super := some objectClass },
    agedClass, listingClass, pickClass]⟩

/-- The field of an array or of an object. -/
def pickAge : Method where
  name := "pickAge"
  descriptor := "(I[ILapp/Main;)V"
  access := .staticBit
  maxStack := 1
  maxLocals := 3
  -- iload_0, ifeq 8, aload_1, goto 9; aload_2; getfield 6, pop, return
  code := [0x1a, 0x99, 0x00, 0x07, 0x2b, 0xa7, 0x00, 0x04, 0x2c, 0xb4, 0x00, 0x06, 0x57, 0xb1]

/-- The way through the array to the field. -/
def throughFirst : List Leg :=
  [⟨3, .flow 5⟩, ⟨2, .flow 3⟩, ⟨1, .flow 2⟩, ⟨0, .flow 1⟩]

theorem isTree_listingTable : listingTable.IsTree where
  names := by decide +kernel
  closed := by decide +kernel
  acyclic := ClassTable.acyclic_of_rank (fun name => if name = objectClass then 0 else 1)
    (by decide +kernel)
  hasRoot := by decide +kernel
  root := by decide +kernel
  belowRoot := by decide +kernel

theorem ClassTable.search_visit {α : Type} {t : ClassTable} {stop : String → Option α}
    {visit : Class → Option α} {name : String} {work seen : List String} {cls : Class}
    (hstop : stop name = none) (hfresh : name ∉ seen) (hfind : t.find? name = some cls) :
    t.search stop visit (name :: work) seen = ((visit cls).map fun a => .ok (some a)).getD
      (t.search stop visit (cls.interfaces ++ cls.super.toList ++ work) (name :: seen)) := by
  rw [search]
  simp only [hstop, List.contains_iff_mem, hfresh, ↓reduceDIte]
  split
  · next h =>
    rw [hfind] at h
    cases h
  · next found h =>
    cases hfind.symm.trans h
    cases visit cls <;> rfl

theorem hierarchy_listingTable : listingTable.hierarchy = { listingTable.hierarchy with
    resolveField := fun owner name desc =>
      if owner = "app/Named" ∧ name = "age" ∧ desc = "I" then
        .ok (⟨"age", "I", .publicBit⟩, agedClass)
      else listingTable.resolveField owner name desc } := by
  have hfield : listingTable.resolveField "app/Named" "age" "I" =
      .ok (⟨"age", "I", .publicBit⟩, agedClass) := by
    rw [ClassTable.resolveField, ClassTable.search_visit rfl (by simp)
      (show listingTable.find? "app/Named" = some listingClass by decide +kernel)]
    show (listingTable.search _ _ ("app/Pet" :: [objectClass]) _ >>= _) = _
    rw [ClassTable.search_visit rfl (by decide)
      (show listingTable.find? "app/Pet" = some agedClass by decide +kernel)]
    rfl
  refine congrArg (fun resolve => { listingTable.hierarchy with resolveField := resolve }) ?_
  funext owner name desc
  split
  · next h =>
    obtain ⟨rfl, rfl, rfl⟩ := h
    exact hfield
  · rfl

/-- Where an interface lists a class, the object that an array and another object are merged to
passes a check that the array does not. -/
theorem accepted_path_refused : listingTable.IsTree ∧
    (∀ cls ∈ listingTable.classes, ∀ name ∈ cls.interfaces, listingTable.has name = true) ∧
    (∀ cls ∈ listingTable.classes, cls.name = objectClass ∨ cls.isInterface = true →
      cls.fields = []) ∧
    ∃ prepared, pickAge.prepare pickClass.pool = .ok prepared ∧
    ∃ g, FlowGraph.build prepared.code pickAge.handlers pickClass.pool true = .ok g ∧
    (∃ verdict, verify listingTable {} "" pickClass pickAge = .ok verdict ∧
      verdict.status = .accepted) ∧
    MethodContext.Plain ⟨listingTable, pickClass, pickAge, prepared.type⟩ prepared.code ∧
    g.walk throughFirst = some ⟨5, []⟩ ∧
    ∃ f, pathFrame ⟨listingTable, pickClass, pickAge, prepared.type⟩ g throughFirst =
        .ok f ∧
      check ⟨listingTable, pickClass, pickAge, prepared.type⟩ (g.instruction 5) f ≠
        .ok () := by
  refine ⟨isTree_listingTable, by decide +kernel, by decide +kernel, ?_⟩
  rw [hierarchy_listingTable]
  decide +kernel

end Bytecode
