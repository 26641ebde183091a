import Bytecode.Proofs.Consistency

/-!
Markers that meet their own allocation.

A marker names the class and the offset of an allocation, not the object. As long as no frame brings
a marker back to the allocation it comes from, the markers of a frame tell its objects apart. At the
top level none does: an allocation there is executed again only when a merge was new, and a merge
keeps no marker that the frame stored before it had not. A subroutine stores a frame for each of its
calls, though, and the first frame of a call is not merged with anything: there the marker of an
object from an earlier call may still be around (`makeTwice`), and the constructor call on the
second object makes the first one count as initialized.

Main statement: `own_marker_in_subroutine`, the only way in which a marker comes back.
-/
namespace Bytecode

/-! ### Markers of one allocation -/

namespace Frame

/-- A frame has the marker of an object that was allocated at an offset. -/
def HasSite (f : Frame) (site : Int) : Prop :=
  ∃ name, f.Has (.uninitialized name site)

variable {h : Hierarchy} {f g m : Frame} {ins : Instruction} {site : Int}

theorem HasSite.of_merge {changed : Bool} (hm : merge h f g = (m, .ok changed))
    (hhas : m.HasSite site) : f.HasSite site ∧ g.HasSite site := by
  obtain ⟨name, hhas⟩ := hhas
  obtain ⟨hf, hg⟩ := hhas.of_merge hm rfl
  exact ⟨⟨name, hf⟩, ⟨name, hg⟩⟩

theorem HasSite.of_effect {c : MethodContext} (he : Effect c ins f g) (hhas : g.HasSite site) :
    f.HasSite site ∨ site = ins.pos := by
  obtain ⟨name, hhas⟩ := hhas
  rcases hhas.of_effect he rfl with hf | ⟨-, name', hnew⟩
  · exact .inl ⟨name, hf⟩
  · exact .inr (ValueType.uninitialized.inj hnew).2

end Frame

namespace MethodContext

variable {c : MethodContext} {g : FlowGraph} {code : Array Instruction} {tasks : List Task}
  {queue : List WorkItem} {s s' : FlowState} {task : Task} {n : Nat} {site : Int}
  {f new : Frame}

theorem not_hasSite_initialFrame (hf : c.initialFrame = .ok f) : ¬f.HasSite site := by
  rintro ⟨name, hhas⟩
  cases (has_initialFrame hf rfl hhas).1

theorem hasSite_of_frame (hf : task.frame g s = .ok f) (hhas : f.HasSite site) :
    task.given.HasSite site := by
  obtain ⟨name, hhas⟩ := hhas
  cases task with
  | flow =>
    cases hf
    exact ⟨name, hhas⟩
  | handle guard source key out =>
    simp only [Task.frame, ite_eq_ok, reduceCtorEq, imp_false, known_eq_ok] at hf
    exact ⟨name, hhas.of_handlerFrame (hf.2 hf.1) rfl⟩

/-! ### The invariant of a run -/

/-- The invariant of a run for the instruction at a node. Until it is executed no frame has a marker
of its offset; and where a frame with such a marker is stored on its entry, there is another context
in which it was executed. -/
structure Fresh (g : FlowGraph) (n : Nat) (tasks : List Task) (s : FlowState) : Prop where
  unused : (∀ k, s.inputs.get? n k = none) →
    (∀ u k f, s.inputs.get? u k = some f ∨ s.outputs.get? u k = some f →
      ¬f.HasSite (g.instruction n).pos) ∧
    ∀ task ∈ tasks, ¬task.given.HasSite (g.instruction n).pos
  elsewhere : ∀ k f, s.inputs.get? n k = some f → f.HasSite (g.instruction n).pos →
    ∃ k', k' ≠ k ∧ (s.inputs.get? n k').isSome

namespace Fresh

theorem start (hf : c.initialFrame = .ok f) :
    Fresh g n [.flow 0 f .empty] (startState g) where
  unused _ := by
    refine ⟨by simp [startState], fun task htask => ?_⟩
    rw [List.mem_singleton.1 htask]
    exact not_hasSite_initialFrame hf
  elsewhere := by simp [startState]

theorem visit {item : WorkItem} {out : Frame} {chain : CallChain} {successors : List Nat}
    (h : Fresh g n [] s) (hl : leaving g item s = .ok (out, chain, successors)) :
    Fresh g n (dueTasks g item out chain successors) s where
  unused hnone := by
    obtain ⟨hstored, -⟩ := h.unused hnone
    refine ⟨hstored, fun task htask => ?_⟩
    have hout := hstored _ _ _ (.inr (leaving_ok hl).1)
    rcases List.mem_append.1 htask with htask | htask
    · obtain ⟨v, -, rfl⟩ := List.mem_map.1 htask
      exact hout
    · obtain ⟨guard, -, rfl⟩ := List.mem_map.1 htask
      exact hout
  elsewhere := h.elsewhere

/-- A node is run on a frame with a marker of its own offset only if it was executed in another
context before. -/
theorem elsewhere_of_arrives {hierarchy : Hierarchy} (h : Fresh g task.node (task :: tasks) s)
    (hf : task.frame g s = .ok f)
    (harrives : Arrives hierarchy (s.inputs.get? task.node task.chain.key) f new)
    (hhas : new.HasSite (g.instruction task.node).pos) :
    ∃ k, k ≠ task.chain.key ∧ (s.inputs.get? task.node k).isSome := by
  cases harrives with
  | first hnone =>
    by_contra! hothers
    -- Nothing is stored at the node at all, so nothing has a marker of it.
    have hunused : ∀ k, s.inputs.get? task.node k = none := by
      intro k
      by_cases hk : k = task.chain.key
      · rw [hk, hnone]
      · simpa using hothers k hk
    exact (h.unused hunused).2 task List.mem_cons_self (hasSite_of_frame hf hhas)
  | grown hold hmerge =>
    exact h.elsewhere _ _ hold (hhas.of_merge hmerge).1

theorem perform {changed : Bool} (hready : Ready c g code) (hstored : Stored c g (task :: tasks) s)
    (hn : n < g.size) (h : Fresh g n (task :: tasks) s) (hf : task.frame g s = .ok f)
    (hexec : c.execute g task.node f task.chain s = (s', .ok changed)) : Fresh g n tasks s' := by
  have hstep := executed_execute hexec
  cases hstep with
  | absorbed _ _ inputs outputs =>
    refine ⟨fun hnone => ?_, ?_⟩
    · rw [inputs] at hnone
      obtain ⟨hframes, htasks⟩ := h.unused hnone
      rw [inputs, outputs]
      exact ⟨hframes, fun t ht => htasks t (List.mem_cons_of_mem task ht)⟩
    · rw [inputs]
      exact h.elsewhere
  | @ran new out arrives check run inputs outputs =>
    have hget := hstored.get?_inputs inputs
    have hget' := hstored.get?_outputs outputs
    refine ⟨fun hnone => ?_, fun k x hx hhas => ?_⟩
    · have hne : task.node ≠ n := by
        rintro rfl
        have hself := hnone task.chain.key
        rw [hget, if_pos ⟨rfl, rfl⟩] at hself
        cases hself
      have hnone' : ∀ k, s.inputs.get? n k = none := by
        intro k
        have hk := hnone k
        rwa [hget, if_neg (fun he => hne he.1)] at hk
      obtain ⟨hframes, htasks⟩ := h.unused hnone'
      have hnew : ¬new.HasSite (g.instruction n).pos := by
        intro hhas
        have hgiven := htasks task List.mem_cons_self
        cases arrives with
        | first => exact hgiven (hasSite_of_frame hf hhas)
        | grown _ hmerge => exact hgiven (hasSite_of_frame hf (hhas.of_merge hmerge).2)
      have hout : ¬out.HasSite (g.instruction n).pos := by
        intro hhas
        rcases hhas.of_effect (effect_run run) with hhas | hpos
        · exact hnew hhas
        · -- The offset of an instruction is its own.
          have hlt := hstored.inRange task List.mem_cons_self
          have hat := CodeEdges.getElem?_code g.toCodeEdges hn
          have hat' := CodeEdges.getElem?_code g.toCodeEdges hlt
          rw [hready.built.code] at hat hat'
          exact hne (hready.prepared.laid.eq_of_pos_eq hat' hat (by omega))
      refine ⟨fun u k x hx => ?_, fun t ht => htasks t (List.mem_cons_of_mem task ht)⟩
      rw [hget, hget'] at hx
      split at hx
      · rcases hx with hx | hx
        · cases hx
          exact hnew
        · cases hx
          exact hout
      · exact hframes u k x hx
    · have hkept : ∀ k', (s.inputs.get? n k').isSome → (s'.inputs.get? n k').isSome := by
        intro k' hk'
        rw [hget]
        split
        · rfl
        · exact hk'
      rw [hget] at hx
      split at hx
      · next he =>
        obtain ⟨rfl, rfl⟩ := he
        cases hx
        obtain ⟨k', hne, hk'⟩ := h.elsewhere_of_arrives hf arrives hhas
        exact ⟨k', hne, hkept k' hk'⟩
      · obtain ⟨k', hne, hk'⟩ := h.elsewhere k x hx hhas
        exact ⟨k', hne, hkept k' hk'⟩

theorem of_reaches (hready : Ready c g code) (hn : n < g.size)
    (hreaches : Reaches c g tasks queue s) : Fresh g n tasks s := by
  induction hreaches with
  | start hf => exact .start hf
  | visit _ hl ih => exact ih.visit hl
  | perform hreaches hf hexec ih =>
    exact ih.perform hready (.of_reaches hready.built hreaches) hn hf hexec

end Fresh

/-- A frame that is stored on entry of a node was the one that the node was run on at some
moment. -/
theorem exists_arrival (hready : Ready c g code) (hreaches : Reaches c g tasks queue s)
    {k : CallKey} {frame : Frame} (hframe : s.inputs.get? n k = some frame) :
    ∃ task tasks queue s f, Reaches c g (task :: tasks) queue s ∧ task.node = n ∧
      task.chain.key = k ∧ task.frame g s = .ok f ∧
      Arrives c.hierarchy (s.inputs.get? n k) f frame := by
  induction hreaches with
  | start => simp [startState] at hframe
  | visit _ _ ih => exact ih hframe
  | @perform task tasks queue s s' f changed hreaches hf hexec ih =>
    have hstep := executed_execute hexec
    cases hstep with
    | absorbed _ _ inputs =>
      rw [inputs] at hframe
      exact ih hframe
    | @ran new out arrives _ _ inputs =>
      rw [(Stored.of_reaches hready.built hreaches).get?_inputs inputs] at hframe
      split at hframe
      · next he =>
        obtain ⟨rfl, rfl⟩ := he
        cases hframe
        exact ⟨task, tasks, queue, s, f, hreaches, rfl, rfl, hf, arrives⟩
      · exact ih hframe

end MethodContext

/-- At each moment of data flow, a node that is run on a frame with a marker of its own offset lies
in a subroutine, is run in the context of one call, and was run before in the context of another
call. So each marker at the top level stands for one object, as it does in a subroutine with one
call. -/
theorem own_marker_in_subroutine (h : Hierarchy) (strict : Bool) (owner : Class) (m : Method)
    (prepared : PreparedCode) (g : FlowGraph) (hprepared : m.prepare owner.pool = .ok prepared)
    (hg : FlowGraph.build prepared.code m.handlers owner.pool strict = .ok g)
    (task : MethodContext.Task) (tasks : List MethodContext.Task) (queue : List WorkItem)
    (s : FlowState) (f frame : Frame)
    (hreaches : MethodContext.Reaches ⟨h, owner, m, prepared.type⟩ g (task :: tasks) queue s)
    (hf : task.frame g s = .ok f)
    (harrives : MethodContext.Arrives h (s.inputs.get? task.node task.chain.key) f frame)
    (name : String) (hown : frame.Has (.uninitialized name (g.instruction task.node).pos)) :
    ∃ call other, task.chain.key = .call call ∧ other ≠ call ∧
      (s.inputs.get? task.node (.call other)).isSome ∧ g.ownerOf task.node ≠ some 0 := by
  have hready := MethodContext.Ready.of_build (h := h) hprepared hg
  have hlt := (MethodContext.Stored.of_reaches hready.built hreaches).inRange task
    List.mem_cons_self
  have hfresh := MethodContext.Fresh.of_reaches hready hlt hreaches
  obtain ⟨k, hne, hk⟩ := hfresh.elsewhere_of_arrives hf harrives ⟨name, hown⟩
  have htracked :=
    MethodContext.Tracked.of_reaches hready.built hready.prepared.laid hready.partitioned hreaches
  obtain ⟨calls, hcalls, hlocated, -⟩ := htracked.due task List.mem_cons_self s f hf
  have hkey := MethodContext.key_eq_keyOf hcalls
  obtain ⟨r, howner, htop, hcall⟩ :=
    (MethodContext.inRegions_of_reaches hready hreaches).owned (.inl hk)
  have hr : r ≠ 0 := by
    intro hr
    -- At the top level both contexts are the same.
    cases hlocated with
    | top => exact hne ((htop.2 hr).trans hkey.symm)
    | under _ _ _ enters owner =>
      cases owner.symm.trans howner
      rw [hr, hready.partitioned.top] at enters
      cases enters
  obtain ⟨other, -, rfl, -⟩ := hcall hr
  cases hlocated with
  | top owner =>
    cases owner.symm.trans howner
    exact absurd rfl hr
  | @under outer call _ _ _ _ _ _ _ owner =>
    refine ⟨call, other, hkey, ?_, hk, ?_⟩
    · rintro rfl
      exact hne hkey.symm
    · rw [howner]
      simpa using hr

/-- A class whose pool names a dog, its constructor and what it does. -/
def kennelClass : Class :=
  { plainClass with pool :=
      ((ConstantPool.empty.addMethodref "app/Dog" constructorName "()V").1.addMethodref
        "app/Dog" "bark" "()V").1 }

/-- The classes that its methods need. -/
def kennelTable : ClassTable :=
  ⟨plainTable.classes ++ [{
    name := "app/Dog"
    super := some objectClass
    methods := [{ name := constructorName, descriptor := "()V", access := .publicBit ∪ .nativeBit },
      { name := "bark", descriptor := "()V", access := .publicBit ∪ .nativeBit }] }]⟩

/-- Two dogs from one allocation in a subroutine. The constructor is called on the second, and the
first one barks. -/
def makeTwice : Method where
  name := "makeTwice"
  descriptor := "()V"
  access := .staticBit
  maxStack := 1
  maxLocals := 3
  -- jsr 17, aload_1, astore_2, jsr 17; aload_1, invokespecial #6, aload_2, invokevirtual #9, return;
  -- astore_0, new #2, astore_1, ret 0
  code := [0xa8, 0x00, 0x11, 0x2b, 0x4d, 0xa8, 0x00, 0x0c, 0x2b, 0xb7, 0x00, 0x06, 0x2c, 0xb6, 0x00,
    0x09, 0xb1, 0x4b, 0xbb, 0x00, 0x02, 0x4c, 0xa9, 0x00]

theorem makeTwice_arrival : ∃ prepared g task tasks queue s f frame,
    makeTwice.prepare kennelClass.pool = .ok prepared ∧
    FlowGraph.build prepared.code makeTwice.handlers kennelClass.pool true = .ok g ∧
    MethodContext.Reaches ⟨kennelTable, kennelClass, makeTwice, prepared.type⟩ g (task :: tasks)
      queue s ∧
    task.frame g s = .ok f ∧
    MethodContext.Arrives kennelTable (s.inputs.get? task.node task.chain.key) f frame ∧
    (g.instruction task.node).action = .allocate ∧
    frame.Has (.uninitialized "app/Dog" (g.instruction task.node).pos) := by
  obtain ⟨prepared, hprepared, g, hg, done, hdone, frame, hframe, haction, hhas⟩ : ∃ prepared,
      makeTwice.prepare kennelClass.pool = .ok prepared ∧
      ∃ g, FlowGraph.build prepared.code makeTwice.handlers kennelClass.pool true = .ok g ∧
      ∃ done, (MethodContext.solve ⟨kennelTable, kennelClass, makeTwice, prepared.type⟩ g).2 =
        .ok done ∧
      ∃ frame, (MethodContext.solve ⟨kennelTable, kennelClass, makeTwice, prepared.type⟩
        g).1.inputs.get? 10 (.call 3) = some frame ∧
      (g.instruction 10).action = .allocate ∧
      frame.Has (.uninitialized "app/Dog" (g.instruction 10).pos) := by decide +kernel
  obtain ⟨s, hreaches, hsame⟩ := (MethodContext.solve_reaches (Prod.eta _).symm).1 hdone
  rw [hsame.1] at hframe
  obtain ⟨task, tasks, queue, s, f, hreaches, hnode, hkey, hf, harrives⟩ :=
    MethodContext.exists_arrival (.of_build hprepared hg) hreaches hframe
  rw [← hnode] at harrives haction hhas
  rw [← hkey] at harrives
  exact ⟨prepared, g, task, tasks, queue, s, f, frame, hprepared, hg, hreaches, hf, harrives,
    haction, hhas⟩

theorem own_marker_in_subroutine_makeTwice : ∃ prepared g task tasks queue s call other,
    makeTwice.prepare kennelClass.pool = .ok prepared ∧
    FlowGraph.build prepared.code makeTwice.handlers kennelClass.pool true = .ok g ∧
    MethodContext.Reaches ⟨kennelTable, kennelClass, makeTwice, prepared.type⟩ g (task :: tasks)
      queue s ∧
    (g.instruction task.node).action = .allocate ∧ task.chain.key = .call call ∧ other ≠ call ∧
    (s.inputs.get? task.node (.call other)).isSome ∧ g.ownerOf task.node ≠ some 0 := by
  obtain ⟨prepared, g, task, tasks, queue, s, f, frame, hprepared, hg, hreaches, hf, harrives,
    haction, hown⟩ := makeTwice_arrival
  obtain ⟨call, other, hkey, hne, hother, howner⟩ := own_marker_in_subroutine kennelTable true
    kennelClass makeTwice prepared g hprepared hg task tasks queue s f frame hreaches hf harrives
    "app/Dog" hown
  exact ⟨prepared, g, task, tasks, queue, s, call, other, hprepared, hg, hreaches, haction, hkey,
    hne, hother, howner⟩

/-- An accepted method in which an allocation is run on a frame that has a marker of its own
offset. -/
theorem own_marker_meets_allocation :
    (verify kennelTable {} "" kennelClass makeTwice).toOption.map Verdict.status =
        some .accepted ∧
      ∃ prepared g task tasks queue s f frame,
        makeTwice.prepare kennelClass.pool = .ok prepared ∧
        FlowGraph.build prepared.code makeTwice.handlers kennelClass.pool true = .ok g ∧
        MethodContext.Reaches ⟨kennelTable, kennelClass, makeTwice, prepared.type⟩ g
          (task :: tasks) queue s ∧
        task.frame g s = .ok f ∧
        MethodContext.Arrives kennelTable (s.inputs.get? task.node task.chain.key) f frame ∧
        (g.instruction task.node).action = .allocate ∧
        frame.Has (.uninitialized "app/Dog" (g.instruction task.node).pos) :=
  ⟨by decide +kernel, makeTwice_arrival⟩

end Bytecode
