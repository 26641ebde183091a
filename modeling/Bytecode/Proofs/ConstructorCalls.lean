import Bytecode.Proofs.BlurredFrames
import Bytecode.Proofs.ClassTree
import Bytecode.Proofs.Freshness
import Bytecode.Proofs.Paths

/-!
Constructor calls on the receiver of a constructor.

While a constructor runs, its receiver has a marker until a constructor is called on it. Data flow
knows about that twice: from the marker, which a merge may take for an initialized object, and from
a flag, which a merge sets if it is set on either side. Along one path, a run that merges nothing has
both exactly, and the stored frames only blur them.

Main statement: `receiver_constructed_once`, up to a return there is exactly one constructor call on
the receiver.
-/
namespace Bytecode

open FlowGraph MethodContext ValueType

/-! ### Calls on the receiver -/

namespace MethodContext

variable {c : MethodContext} {g : FlowGraph} {code : Array Instruction} {s : FlowState}
  {legs : List Leg} {p q : Point} {k : CallKey} {f e out out' carried next : Frame}
  {ins : Instruction} {n : Nat}

/-- Is an instruction a constructor call on the receiver of a constructor? -/
def initializesThis (c : MethodContext) (ins : Instruction) (f : Frame) : Bool :=
  match ins.action with
  | .invoke kind =>
    match c.methodOperand ins kind with
    | .ok (ref, type) =>
      ref.name = constructorName && f.stack.values[type.args.length]?.any isUninitializedThis
    | .error _ => false
  | _ => false

/-- The frame at the end of a path along which each instruction is run on what the one before it
left, with no checks and no merges. -/
def runFrame (c : MethodContext) (g : FlowGraph) : List Leg → Except InternalError Frame
  | [] => c.initialFrame
  | leg :: before => do
    let f ← c.runFrame g before
    let out ← c.run (g.instruction leg.node) f
    leg.turn.frame f out

/-- How many instructions of a path are constructor calls on the receiver of a constructor. -/
def receiverCalls (c : MethodContext) (g : FlowGraph) : List Leg → Nat
  | [] => 0
  | leg :: before => c.receiverCalls g before +
      if (c.runFrame g before).toOption.any (c.initializesThis (g.instruction leg.node)) then 1 else 0

theorem exists_this (h : c.initializesThis ins f = true) :
    ∃ v, f.Has v ∧ v.isUninitializedThis = true := by
  unfold initializesThis at h
  split at h
  · split at h
    · rw [Bool.and_eq_true, Option.any_eq_true] at h
      obtain ⟨-, v, hv, hthis⟩ := h
      exact ⟨v, .inl (List.mem_of_getElem? hv), hthis⟩
    · cases h
  · cases h

theorem flag_run (h : c.run ins f = .ok out) :
    out.thisUninitialized = (f.thisUninitialized && !c.initializesThis ins f) := by
  by_cases hinvoke : ∃ kind, ins.action = .invoke kind
  · obtain ⟨kind, hact⟩ := hinvoke
    simp only [run, hact, runInvoke, bind_eq_ok, Prod.exists] at h
    obtain ⟨ref, type, hoperand, h⟩ := h
    simp only [initializesThis, hact, hoperand]
    split at h
    · next hname =>
      obtain ⟨marker, hmarker, h⟩ := bind_eq_ok.1 h
      rw [Stack.peek_eq_ok] at hmarker
      obtain ⟨vs, rfl, -⟩ := values_popN_result h
      cases hthis : marker.isUninitializedThis with
      | true => simp [hname, hmarker, hthis]
      | false => simp [hname, hmarker, hthis, Frame.initializeObject]
    · next hname =>
      obtain ⟨vs, rfl, -⟩ := values_popN_result h
      simp [hname]
  · have hnone : c.initializesThis ins f = false := by
      unfold initializesThis
      split
      · next kind hact => exact absurd ⟨kind, hact⟩ hinvoke
      · rfl
    rw [hnone, Bool.not_false, Bool.and_true]
    cases effect_run h with
    | values | call | store => rfl
    | construct hact => exact absurd ⟨_, hact⟩ hinvoke

theorem initializesThis_eq (hfe : f.Blurred c.hierarchy e) (hchecked : c.Checked ins)
    (hcheck : c.check ins f = .ok ()) : c.initializesThis ins e = c.initializesThis ins f := by
  have hvalues := (check_eq_ok.1 hcheck).2
  unfold initializesThis
  split
  · next kind hact =>
    simp only [checkValues, hact] at hvalues
    obtain ⟨ref, type, hoperand, -, hconstructor⟩ := hchecked.invoke hact
    simp only [hoperand]
    by_cases hname : ref.name = constructorName
    · obtain ⟨marker, hmarker, huninitialized⟩ :=
        (operands_of_checkInvoke hoperand hvalues).2 (hconstructor hname).1 hname
      obtain ⟨w, hw, hblurs⟩ := Frame.Related.operand hfe hmarker
      rw [hmarker, hw, hblurs.eq_of_isUninitialized huninitialized]
    · simp [hname]
  · rfl

theorem classMarked_run (he : e.ClassMarked) (hcheck : c.check ins f = .ok ())
    (hrun : c.run ins e = .ok out) : out.ClassMarked := by
  intro v hhas hv
  rcases hhas.of_effect (effect_run hrun) hv with hold | ⟨hact, name, rfl⟩
  · exact he v hold hv
  have hvalues := (check_eq_ok.1 hcheck).2
  simp only [checkValues, hact, checkAllocate, bind_eq_ok, known_eq_ok, ite_reject_bind_eq_ok]
    at hvalues
  obtain ⟨operand, hoperand, hclass, -⟩ := hvalues
  simp only [run, hact, bind_eq_ok, Frame.push_eq_ok] at hrun
  obtain ⟨name', hname', -, -, rfl⟩ := hrun
  cases hoperand.symm.trans hname'
  rcases hhas with hmem | hmem
  · rcases List.mem_cons.1 hmem with heq | hmem
    · cases heq
      exact Bool.not_eq_true _ ▸ hclass
    · exact he _ (.inl hmem) hv
  · exact he _ (.inr hmem) hv

/-! ### Along a path -/

/-- What the frame of a run tells about the receiver, if the run has called a constructor on it so
many times: never, and then the flag is set, or once, and then no marker of the receiver is left. -/
structure ReceiverCalled (c : MethodContext) (e : Frame) (calls : Nat) : Prop where
  marked : e.ThisMarked c.owner.name
  classes : e.ClassMarked
  calls : calls = 0 ∧ e.thisUninitialized = true ∨
    calls = 1 ∧ ∀ v, e.Has v → v.isUninitializedThis = false

/-- A constructor call on the receiver is the first one, and leaves none of its markers. -/
theorem ReceiverCalled.run (h : ReceiverCalled c e n) (hcheck : c.check ins f = .ok ())
    (hrun : c.run ins e = .ok out) :
    ReceiverCalled c out (n + if c.initializesThis ins e then 1 else 0) where
  marked := h.marked.of_effect (effect_run hrun)
  classes := classMarked_run h.classes hcheck hrun
  calls := by
    have hflag := flag_run hrun
    by_cases hcall : c.initializesThis ins e = true
    · obtain ⟨this, hhas, hthis⟩ := exists_this hcall
      rcases h.calls with ⟨rfl, -⟩ | ⟨-, hnone⟩
      · refine .inr ⟨by simp [hcall], fun v hv => ?_⟩
        -- Were there a marker left, the flag would be set.
        by_contra hthis
        rw [Bool.not_eq_false] at hthis
        obtain ⟨-, hset⟩ := h.marked.of_effect (effect_run hrun) v hv hthis
        simp [hflag, hcall] at hset
      · rw [hnone this hhas] at hthis
        cases hthis
    · rw [Bool.not_eq_true] at hcall
      rcases h.calls with ⟨rfl, hset⟩ | ⟨rfl, hnone⟩
      · exact .inl ⟨by simp [hcall], by simp [hflag, hset, hcall]⟩
      · refine .inr ⟨by simp [hcall], fun v hv => ?_⟩
        by_contra hthis
        rw [Bool.not_eq_false] at hthis
        rcases hv.of_effect (effect_run hrun) (Frame.ThisMarked.isUninitialized hthis) with
          hold | ⟨-, name, rfl⟩
        · rw [hnone v hold] at hthis
          cases hthis
        · cases hthis

/-- A handler finds the local variables with what was caught, and the flag from before and after. -/
theorem ReceiverCalled.caught (h : ReceiverCalled c out n) (guard : Guard) (input : Frame) :
    ReceiverCalled c (caughtFrame guard input out) n := by
  have hhas : ∀ v, (caughtFrame guard input out).Has v → v.isUninitialized = true → out.Has v := by
    rintro v (hmem | hmem) hv
    · rw [List.mem_singleton.1 hmem] at hv
      cases hv
    · exact .inr hmem
  refine ⟨?_, ?_, ?_⟩
  · intro v hv hthis
    obtain ⟨heq, hflag⟩ :=
      h.marked v (hhas v hv (Frame.ThisMarked.isUninitialized hthis)) hthis
    exact ⟨heq, by simp [caughtFrame, hflag]⟩
  · intro v hv hmarker
    exact h.classes v (hhas v hv hmarker) hmarker
  · rcases h.calls with ⟨rfl, hset⟩ | ⟨rfl, hnone⟩
    · exact .inl ⟨rfl, by simp [caughtFrame, hset]⟩
    · refine .inr ⟨rfl, fun v hv => ?_⟩
      by_contra hthis
      rw [Bool.not_eq_false] at hthis
      rw [hnone v (hhas v hv (Frame.ThisMarked.isUninitialized hthis))] at hthis
      cases hthis

/-- What a run along a path has to do with a stored frame at its end. -/
structure Constructs (c : MethodContext) (f e : Frame) (calls : Nat) : Prop where
  blurred : f.Blurred c.hierarchy e
  flag : e.thisUninitialized = true → f.thisUninitialized = true
  receiver : ReceiverCalled c e calls

theorem constructs_initialFrame (hconstructor : c.startsUninitialized = true)
    (howner : namesArray c.owner.name = false) (hf : c.initialFrame = .ok f) :
    Constructs c f f 0 := by
  have hinitial := initial_of_initialFrame hf
  refine ⟨.refl (by simp [hinitial.values]), id, fun v hhas hv => ?_, ?_,
    .inl ⟨rfl, hinitial.flag.trans hconstructor⟩⟩
  · exact has_initialFrame hf (Frame.ThisMarked.isUninitialized hv) hhas
  · intro v hhas hv
    obtain ⟨rfl, -⟩ := has_initialFrame hf hv hhas
    exact howner

theorem Constructs.turn {turn : Turn} (hclasses : c.hierarchy.ClassesOnly) (h : Ready c g code)
    (hp : p.node < g.size) (hconstructs : Constructs c f e n) (hfits : c.Fits f)
    (hcheck : c.check (g.instruction p.node) f = .ok ())
    (hrun : c.run (g.instruction p.node) f = .ok out) (hfollow : g.follow p turn = some q)
    (hcarries : turn.frame f out = .ok carried) : ∃ out' e',
      c.run (g.instruction p.node) e = .ok out' ∧ turn.frame e out' = .ok e' ∧
      Constructs c carried e' (n + if c.initializesThis (g.instruction p.node) e then 1 else 0) := by
  have hchecked := h.checked hp
  have hblurred := hconstructs.blurred
  obtain ⟨out', hrun', hlocals, hstack⟩ := hblurred.run_locals hclasses
    hconstructs.receiver.classes hfits hchecked hcheck hrun
  have hreceiver := hconstructs.receiver.run hcheck hrun'
  have hflag : out'.thisUninitialized = true → out.thisUninitialized = true := by
    rw [flag_run hrun, flag_run hrun', initializesThis_eq hblurred hchecked hcheck]
    simp only [Bool.and_eq_true]
    exact And.imp_left hconstructs.flag
  rcases frame_eq_ok.1 hcarries with ⟨hturn, rfl⟩ | ⟨guard, rfl, hroom, rfl⟩
  · exact ⟨out', out', hrun', frame_eq_ok.2 (.inl ⟨hturn, rfl⟩),
      hstack (action_ne_raise h hfollow hturn), hflag, hreceiver⟩
  · refine ⟨out', _, hrun', frame_eq_ok.2 (.inr ⟨guard, rfl, hlocals.max ▸ hroom, rfl⟩),
      hlocals.caught guard, ?_, hreceiver.caught guard e⟩
    simp only [caughtFrame, Bool.or_eq_true]
    exact Or.imp hflag hconstructs.flag

theorem Constructs.of_covers (h : Constructs c f e n) (hcovers : next.Covers c.hierarchy f)
    (hmax : next.stack.max = f.stack.max) : Constructs c next e n where
  blurred := h.blurred.of_covers hcovers hmax
  flag := hcovers.thisUninitialized ∘ h.flag
  receiver := h.receiver

/-- Along every path the stored frames say no more than a run, and the run has called a constructor
on the receiver at most once. -/
theorem constructs_along (hclasses : c.hierarchy.ClassesOnly)
    (hconstructor : c.startsUninitialized = true) (howner : namesArray c.owner.name = false)
    (h : Solved c g code s) (halong : Along c g s legs p k carried f) :
    ∃ e, c.runFrame g legs = .ok e ∧ Constructs c f e (c.receiverCalls g legs) := by
  induction halong with
  | @start f first initial hfirst covers =>
    obtain ⟨f', hf', hfits⟩ := initialFrame_proceeds h.ready
    cases initial.symm.trans hf'
    refine ⟨f, initial, (constructs_initialFrame hconstructor howner initial).of_covers covers ?_⟩
    rw [hfits.max, (h.fits (.inl hfirst)).max]
  | @turn before p q k k' turn _ input out carried next along check run output follow _ carries hnext
      covers ih =>
    obtain ⟨e, he, hconstructs⟩ := ih
    obtain ⟨out', e', hrun', hturn, hcarried⟩ := hconstructs.turn hclasses h.ready
      (h.lt along.stored) (h.fits (.inl along.stored)) check run follow carries
    refine ⟨e', by simp [runFrame, he, hrun', hturn], ?_⟩
    have hcount : c.receiverCalls g (⟨p.node, turn⟩ :: before) = c.receiverCalls g before +
        if c.initializesThis (g.instruction p.node) e then 1 else 0 := by
      simp [receiverCalls, he, Except.toOption]
    rw [hcount]
    refine hcarried.of_covers covers ?_
    rw [max_of_frame carries, (h.fits (.inl hnext)).max, (h.fits (.inr output)).max]

/-- Where a constructor returns, its receiver counts as initialized. -/
theorem flag_of_check (hconstructor : c.method.isConstructor = true) (hresult : c.type.result = none)
    (hreturn : ins.op.isReturn = true) (hcheck : c.check ins f = .ok ()) :
    f.thisUninitialized = false := by
  have hvalues := (check_eq_ok.1 hcheck).2
  have hact : ∃ value, ins.action = .leave value := by
    unfold Opcode.isReturn at hreturn
    split at hreturn
    · next value hact => exact ⟨value, hact⟩
    · cases hreturn
  obtain ⟨value, hact⟩ := hact
  simp only [checkValues, hact] at hvalues
  have hreturns := checkReturn_eq_ok.1 hvalues
  unfold Returns at hreturns
  rw [hresult] at hreturns
  cases value with
  | none => simpa [hconstructor] using hreturns
  | some kind => cases kind <;> exact hreturns.elim

end MethodContext

theorem ClassTable.classesOnly {t : ClassTable} (hnames : ∀ cls ∈ t.classes, IsClassName cls.name) :
    t.hierarchy.ClassesOnly := by
  intro a b ha hab
  rcases isSubclassOf_eq_true.1 hab with rfl | ⟨sub, above, -, habove, hb⟩
  · exact ha
  · obtain ⟨cls, -, -, -, hfind, -⟩ := habove.of_mem hb
    obtain ⟨hmem, rfl⟩ := mem_of_find? hfind
    exact (hnames cls hmem).namesArray

theorem result_of_prepare {m : Method} {pool : ConstantPool} {prepared : PreparedCode}
    (hconstructor : m.isConstructor = true) (h : m.prepare pool = .ok prepared) :
    prepared.type.result = none := by
  simp only [Method.prepare, bind_eq_ok, mapError_eq_ok, ite_error_bind_eq_ok, pure_eq_ok] at h
  obtain ⟨type, -, hresult, -, -, code, -, -, -, -, -, rfl⟩ := h
  simpa [hconstructor] using hresult

/-- Over a table whose classes have names of classes, let a constructor of a class other than the
root be accepted. Then along every path through its graph to a return, with calls and returns of
subroutines and with handlers, each instruction can be run on what the one before it left, with no
checks and no merges, and exactly one of them is a constructor call on the receiver that has none
behind it. -/
theorem receiver_constructed_once (t : ClassTable)
    (hnames : ∀ cls ∈ t.classes, IsClassName cls.name) (options : VerifyOptions) (runId : String)
    (owner : Class) (howner : IsClassName owner.name) (hroot : owner.name ≠ objectClass)
    (m : Method) (hconstructor : m.isConstructor = true) (verdict : Verdict)
    (prepared : PreparedCode) (g : FlowGraph) (hprepared : m.prepare owner.pool = .ok prepared)
    (hg : FlowGraph.build prepared.code m.handlers owner.pool options.strict = .ok g)
    (hcode : m.hasCode = true) (hverdict : verify t options runId owner m = .ok verdict)
    (haccepted : verdict.status = .accepted) (legs : List Leg) (p : Point)
    (hwalk : g.walk legs = some p) (hreturn : (g.instruction p.node).op.isReturn = true) :
    (∃ f, runFrame ⟨t, owner, m, prepared.type⟩ g legs = .ok f) ∧
      receiverCalls ⟨t, owner, m, prepared.type⟩ g legs = 1 := by
  obtain ⟨s, -, hsolved⟩ := solved_of_accepted hprepared hg hcode hverdict haccepted
  obtain ⟨k, carried, stored, calls, halong, -⟩ := exists_along hsolved hwalk
  have hstarts : startsUninitialized ⟨t, owner, m, prepared.type⟩ = true := by
    simp [startsUninitialized, hconstructor, hroot]
  obtain ⟨f, hf, hconstructs⟩ := constructs_along (ClassTable.classesOnly hnames)
    hstarts howner.namesArray hsolved halong
  obtain ⟨hcheck, -⟩ := hsolved.fixed.executed _ _ _ halong.stored
  have hflag := flag_of_check hconstructor (result_of_prepare hconstructor hprepared) hreturn hcheck
  refine ⟨⟨f, hf⟩, ?_⟩
  rcases hconstructs.receiver.calls with ⟨-, hset⟩ | ⟨honce, -⟩
  · rw [hconstructs.flag hset] at hflag
    cases hflag
  · exact honce

/-- A class below that of the dogs. -/
def puppyClass : Class where
  name := "app/Puppy"
  super := some "app/Dog"
  pool := (ConstantPool.empty.addMethodref "app/Dog" constructorName "()V").1

/-- The classes that its constructor needs. -/
def puppyTable : ClassTable :=
  ⟨kennelTable.classes ++ [puppyClass]⟩

/-- A constructor that leaves the call on its receiver to a subroutine, from the usual way and from a
handler. -/
def makePuppy : Method where
  name := constructorName
  descriptor := "(I)V"
  access := .publicBit
  maxStack := 1
  maxLocals := 3
  -- iload_1, pop, jsr 11, return; pop, jsr 11, return; astore_2, aload_0, invokespecial #6, ret 2
  code := [0x1b, 0x57, 0xa8, 0x00, 0x09, 0xb1, 0x57, 0xa8, 0x00, 0x04, 0xb1, 0x4d, 0x2a, 0xb7, 0x00,
    0x06, 0xa9, 0x02]
  handlers := [{ start := 0, stop := 1, target := 6, catchIndex := 0 }]

/-- The way through the handler and the subroutine. -/
def throughHandler : List Leg :=
  [⟨10, .back⟩, ⟨9, .flow 10⟩, ⟨8, .flow 9⟩, ⟨7, .flow 8⟩, ⟨5, .flow 7⟩, ⟨4, .flow 5⟩,
    ⟨0, .caught { start := 0, stop := 1, entry := 4, caught := none }⟩]

theorem isTree_puppyTable : puppyTable.IsTree where
  names := by decide
  closed := by decide
  acyclic := ClassTable.acyclic_of_rank
    (fun name => if name = objectClass then 0 else if name = "app/Puppy" then 2 else 1) (by decide)
  hasRoot := by decide
  root := by decide
  belowRoot := by decide

theorem receiver_constructed_once_throughHandler : puppyTable.IsTree ∧ ∃ prepared g,
    makePuppy.prepare puppyClass.pool = .ok prepared ∧
    FlowGraph.build prepared.code makePuppy.handlers puppyClass.pool true = .ok g ∧
    g.walk throughHandler = some ⟨6, []⟩ ∧ (g.instruction 6).op.isReturn = true ∧
    (∃ f, runFrame ⟨puppyTable, puppyClass, makePuppy, prepared.type⟩ g
      throughHandler = .ok f) ∧
    receiverCalls ⟨puppyTable, puppyClass, makePuppy, prepared.type⟩ g
      throughHandler = 1 := by
  obtain ⟨prepared, hprepared, g, hg, hwalk, hreturn⟩ : ∃ prepared,
      makePuppy.prepare puppyClass.pool = .ok prepared ∧
      ∃ g, FlowGraph.build prepared.code makePuppy.handlers puppyClass.pool true = .ok g ∧
      g.walk throughHandler = some ⟨6, []⟩ ∧ (g.instruction 6).op.isReturn = true := by
    decide +kernel
  obtain ⟨verdict, hverdict, haccepted⟩ : ∃ verdict,
      verify puppyTable {} "" puppyClass makePuppy = .ok verdict ∧ verdict.status = .accepted := by
    decide +kernel
  obtain ⟨hrun, honce⟩ := receiver_constructed_once puppyTable isTree_puppyTable.names {} ""
    puppyClass (by decide) (by decide) makePuppy rfl verdict prepared g hprepared hg rfl
    hverdict haccepted throughHandler ⟨6, []⟩ hwalk hreturn
  exact ⟨isTree_puppyTable, prepared, g, hprepared, hg, hwalk, hreturn, hrun, honce⟩

end Bytecode
