import Bytecode.CallChain
import Mathlib.Data.List.DropRight

/-!
The innermost call that has not returned. Each cell of a chain points to the cell of that call, so
that the context of the next instruction is read off at once, and a return goes on with what the
cell before the call points to. The steps that made the chain tell the same: looking back from
the newest of them, one counts the returns whose calls are still to come, and the first call that is
not needed for one of them is the innermost that is open.

Main statement: `openCall_is_nearestOpen`, for all chains that grow out of each other.
-/
namespace Bytecode

open List

/-- A step of a chain: an instruction, with what it does to the open calls. -/
structure ChainStep where
  node : Nat
  isCall : Bool := false
  isReturn : Bool := false
  deriving DecidableEq, Repr

/-- The nearest call without a return of its own, looking back over steps that start with the
newest. The number is that of the returns met so far whose calls are still to come. -/
def nearestOpen (returns : Nat) : List ChainStep → Option Nat
  | [] => none
  | step :: older =>
    if step.isCall then
      if returns = 0 then some step.node else nearestOpen (returns - 1) older
    else nearestOpen (if step.isReturn then returns + 1 else returns) older

namespace CallChain

variable {c d : CallChain} {step : ChainStep} {steps : List ChainStep}

theorem extend_eq_error {node : Nat} {isCall isReturn : Bool} {e : InternalError} :
    c.extend node isCall isReturn = .error e ↔
      isCall = false ∧ isReturn = true ∧ c.openCall? = none ∧ e = .noOpenCall node := by
  unfold extend openCall?
  cases isCall <;> cases isReturn <;> cases c.opened <;> simp [node?, eq_comm]

/-! ### What the cells hold -/

/-- The instructions of a chain, the newest first. -/
def nodes : CallChain → List Nat
  | .empty => []
  | .call node prev _ | .step node prev .. => node :: prev.nodes

/-- The calls that are open, the innermost first: that of the chain, and then those of the chain
before its cell. -/
def openCalls : CallChain → List Nat
  | .empty | .step _ _ .empty _ => []
  | .call node prev _ | .step _ _ (.call node prev _) _ | .step _ _ (.step node prev ..) _ =>
    node :: prev.openCalls

theorem openCalls_eq (c : CallChain) :
    c.openCalls = c.openCall?.toList ++ c.opened.prev.openCalls := by
  cases c with
  | empty | call => simp [openCalls, openCall?, opened, node?, prev]
  | step _ _ cell => cases cell <;> simp [openCalls, openCall?, opened, node?, prev]

theorem openCall?_eq_head? (c : CallChain) : c.openCall? = c.openCalls.head? := by
  rw [openCalls_eq]
  cases hopen : c.openCall? with
  | some => rfl
  | none => cases hcell : c.opened <;> simp_all [openCall?, node?, prev, openCalls]

theorem openCalls_step (node : Nat) (prev c : CallChain) (depth : Nat) :
    (CallChain.step node prev c.opened depth).openCalls = c.openCalls := by
  rw [openCalls_eq, openCalls_eq c]
  rfl

theorem extend_eq_ok {node : Nat} {isCall isReturn : Bool}
    (h : c.extend node isCall isReturn = .ok d) :
    d.nodes = node :: c.nodes ∧ d.length = c.length + 1 ∧
      d.openCalls =
        if isCall then node :: c.openCalls
        else if isReturn then c.openCalls.tail else c.openCalls := by
  unfold extend at h
  cases isCall with
  | true =>
    cases h
    exact ⟨rfl, rfl, rfl⟩
  | false =>
    cases isReturn with
    | false =>
      cases h
      exact ⟨rfl, rfl, openCalls_step ..⟩
    | true =>
      -- The chain before the call has all that was open before it.
      rw [openCalls_eq c, openCall?]
      cases hcell : c.opened with
      | empty => simp [hcell] at h
      | call | step =>
        simp only [hcell, Bool.false_eq_true, if_false, if_true, Except.ok.injEq] at h
        subst h
        exact ⟨rfl, rfl, openCalls_step ..⟩

theorem collect_eq (c : CallChain) (keep : Nat) (out : List Nat) :
    c.collect keep out = (c.nodes.take keep).reverse ++ out := by
  induction c generalizing keep out with
  | empty => cases keep <;> rfl
  | call node prev _ ih | step node prev _ _ ih =>
    cases keep with
    | zero => rfl
    | succ keep => simp [collect, nodes, ih]

theorem newest_eq (c : CallChain) (limit : Int) : c.newest limit =
    ((c.nodes.take (if limit ≤ 0 then c.length else min limit.toNat c.length)).reverse,
      c.length - if limit ≤ 0 then c.length else min limit.toNat c.length) := by
  have hkeep : (if 0 < limit ∧ limit < c.length then limit.toNat else c.length) =
      if limit ≤ 0 then c.length else min limit.toNat c.length := by
    split <;> split <;> omega
  rw [newest, hkeep, collect_eq, append_nil]

theorem exists_extend (node : Nat) {isCall isReturn : Bool}
    (h : isCall = false → isReturn = true → c.openCalls ≠ []) :
    ∃ d, c.extend node isCall isReturn = .ok d := by
  cases hextend : c.extend node isCall isReturn with
  | ok d => exact ⟨d, rfl⟩
  | error e =>
    obtain ⟨hcall, hreturn, hnone, -⟩ := extend_eq_error.1 hextend
    rw [openCall?_eq_head?, head?_eq_none_iff] at hnone
    exact absurd hnone (h hcall hreturn)

/-! ### Looking back -/

/-- What a chain keeps of the steps that made it, the newest first: their instructions, and the
calls that looking back finds, for each number of returns to be passed over. -/
structure Recounts (c : CallChain) (steps : List ChainStep) : Prop where
  nodes : c.nodes = steps.map ChainStep.node
  length : c.length = steps.length
  openCalls : ∀ returns, c.openCalls[returns]? = nearestOpen returns steps

theorem Recounts.openCall? (h : c.Recounts steps) : c.openCall? = nearestOpen 0 steps := by
  rw [openCall?_eq_head?, head?_eq_getElem?, h.openCalls]

/-- One step more on both sides. A call is found at once, or it belongs to a return that was passed
over before; a return passes over one call more. -/
theorem Recounts.extend (h : c.Recounts steps)
    (hextend : c.extend step.node step.isCall step.isReturn = .ok d) :
    d.Recounts (step :: steps) := by
  obtain ⟨hnodes, hlength, hopen⟩ := extend_eq_ok hextend
  -- For every number of returns at once: a step that returns asks for one more than it is asked.
  refine ⟨by rw [hnodes, h.nodes, map_cons], by rw [hlength, h.length, length_cons],
    fun returns => ?_⟩
  rw [hopen, nearestOpen]
  cases step.isCall with
  | true =>
    cases returns with
    | zero => rfl
    | succ returns => exact h.openCalls returns
  | false =>
    cases step.isReturn with
    | true => exact getElem?_tail.trans (h.openCalls (returns + 1))
    | false => exact h.openCalls returns

/-! ### Families of chains -/

/-- Chains that grow out of each other, each with the steps that made it. Any of them may be
extended any number of times, so chains have their beginnings in common. A step that fails adds no
chain. -/
inductive Family : List (List ChainStep × CallChain) → Prop
  | root : Family [([], .empty)]
  | branch {family : List (List ChainStep × CallChain)} {steps : List ChainStep}
      {c d : CallChain} (step : ChainStep) :
      Family family → (steps, c) ∈ family →
      c.extend step.node step.isCall step.isReturn = .ok d → Family ((step :: steps, d) :: family)

/-- Every chain of a family keeps what looking back over its own steps finds. -/
theorem Family.recounts {family : List (List ChainStep × CallChain)} (h : Family family) :
    ∀ member ∈ family, member.2.Recounts member.1 := by
  induction h with
  | root =>
    intro member hmember
    cases mem_singleton.1 hmember
    exact ⟨rfl, rfl, fun _ => rfl⟩
  | branch step _ hc hextend ih =>
    intro member hmember
    rcases mem_cons.1 hmember with rfl | hmember
    · exact (ih _ hc).extend hextend
    · exact ih member hmember

/-- In a family of chains, the innermost open call of each and its context are found by looking back
over its steps. A step fails exactly if it is a return and looking back finds no call. The length is
the number of steps, and the newest instructions are the last ones of the steps. -/
theorem openCall_is_nearestOpen {family : List (List ChainStep × CallChain)}
    (hfamily : Family family) {steps : List ChainStep} {c : CallChain} (hc : (steps, c) ∈ family) :
    c.openCall? = nearestOpen 0 steps ∧
    c.key = ((nearestOpen 0 steps).map CallKey.call).getD .topLevel ∧
    (∀ node isCall isReturn e, c.extend node isCall isReturn = .error e ↔
      isCall = false ∧ isReturn = true ∧ nearestOpen 0 steps = none ∧ e = .noOpenCall node) ∧
    c.length = steps.length ∧
    (∀ limit ≤ 0, c.newest limit = ((steps.map ChainStep.node).reverse, 0)) ∧
    ∀ limit > 0, c.newest limit =
      ((steps.map ChainStep.node).reverse.rtake (min limit.toNat steps.length),
        steps.length - min limit.toNat steps.length) := by
  have hsteps : c.Recounts steps := hfamily.recounts _ hc
  refine ⟨hsteps.openCall?, ?_, fun node isCall isReturn e => ?_, hsteps.length,
    fun limit hlimit => ?_, fun limit hlimit => ?_⟩
  · rw [key, ← hsteps.openCall?]
    cases c.openCall? <;> rfl
  · rw [extend_eq_error, hsteps.openCall?]
  · rw [newest_eq, if_pos hlimit, Nat.sub_self, ← hsteps.nodes,
      take_of_length_le (by rw [hsteps.length, hsteps.nodes, length_map])]
  · rw [newest_eq, if_neg (by omega), hsteps.length, ← hsteps.nodes,
      rtake_eq_reverse_take_reverse, reverse_reverse]

/-- One call, and two chains that go on from it. -/
def oneCall : CallChain := .call 1 .empty 0

/-- The call has returned. -/
def returned : CallChain := .step 2 oneCall .empty 1

/-- A second call was made under the first. -/
def nested : CallChain := .call 6 (.step 5 oneCall oneCall 1) 2

def twoBranches : List (List ChainStep × CallChain) :=
  [([⟨6, true, false⟩, ⟨5, false, false⟩, ⟨1, true, false⟩], nested),
    ([⟨5, false, false⟩, ⟨1, true, false⟩], .step 5 oneCall oneCall 1),
    ([⟨2, false, true⟩, ⟨1, true, false⟩], returned),
    ([⟨1, true, false⟩], oneCall),
    ([], .empty)]

/-- Where the call has returned, there is nothing to return from. Where a second call was made, it
is the one that is open. -/
theorem openCall_is_nearestOpen_twoBranches :
    Family twoBranches ∧
    returned.extend 7 false true = .error (.noOpenCall 7) ∧
    nested.key = .call 6 ∧
    nested.newest 2 = ([5, 6], 1) := by
  have hfamily : Family twoBranches :=
    .branch ⟨6, true, false⟩
      (.branch ⟨5, false, false⟩
        (.branch ⟨2, false, true⟩
          (.branch ⟨1, true, false⟩ .root mem_cons_self rfl)
          mem_cons_self rfl)
        (mem_cons_of_mem _ mem_cons_self) rfl)
      mem_cons_self rfl
  have hreturned : ([⟨2, false, true⟩, ⟨1, true, false⟩], returned) ∈ twoBranches := by
    simp [twoBranches]
  have hnested : ([⟨6, true, false⟩, ⟨5, false, false⟩, ⟨1, true, false⟩], nested) ∈
      twoBranches := mem_cons_self
  obtain ⟨-, -, hfails, -⟩ := openCall_is_nearestOpen hfamily hreturned
  obtain ⟨-, hkey, -, -, -, hnewest⟩ := openCall_is_nearestOpen hfamily hnested
  exact ⟨hfamily, (hfails _ _ _ _).2 ⟨rfl, rfl, rfl, rfl⟩, hkey, hnewest 2 (by decide)⟩

end CallChain

end Bytecode
