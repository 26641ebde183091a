import Bytecode.Proofs.AssembledCode

/-!
The matches of a jump table, as they are asked for and as they are read.

A jump table is written with its least and its greatest match, in 32 bits each. Emitting one never
fails for its matches. If the greatest one is a number of 32 bits, the instruction is read with the
matches that were asked for; otherwise it wraps around, and the code cannot be read.

* `Instruction.IsJumpTable`: the matches count up from the first, each with the offset of its label;
* `CodeBuilder.drop_finish`: built code from an emission on is the bytes of the emission;
* `tableSwitch_matches`: both cases, for the calls of a builder and for a line of text.
-/
namespace Bytecode

/-- An instruction is a jump table for the matches from `low` on, one for each of some labels, and
each goes to the offset of its label. -/
structure Instruction.IsJumpTable (ins : Instruction) (offset? : String → Option Nat) (low : Int)
    (otherwise : String) (targets : List String) : Prop where
  op : ins.op = .tableswitch
  keys : ins.cases.map Prod.fst = (List.range targets.length).map fun i : Nat => low + i
  targets : ins.cases.map (some ·.2) = targets.map fun label => (offset? label).map Int.ofNat
  otherwise : ins.branchTargets.head? = (offset? otherwise).map Int.ofNat

theorem Emission.isJumpTable {offset? : String → Option Nat} {pos : Nat} {low : Int32}
    {otherwise : String} {targets : List String} {ins : Instruction}
    (h : (tableSwitch low otherwise targets).instruction? offset? pos = some ins) :
    ins.IsJumpTable offset? low.toInt otherwise targets := by
  simp only [instruction?, operand?, Option.map_eq_some_iff, Option.bind_eq_bind,
    Option.bind_eq_some_iff, Option.pure_def, Option.some.injEq] at h
  obtain ⟨_, ⟨first, hfirst, rest, hrest, rfl⟩, rfl⟩ := h
  have hmap := mapM_eq_some.1 hrest
  have hlength : targets.length = rest.length := by simpa using congrArg List.length hmap
  refine ⟨rfl, ?_, ?_, by rw [hfirst]; rfl⟩
  · refine List.ext_getElem (by simp [Instruction.cases, hlength]) fun i _ _ => ?_
    simp [Instruction.cases]
  · have htargets := congrArg (List.map (Option.map Int.ofNat)) hmap
    rw [List.map_map, List.map_map] at htargets
    refine Eq.trans (List.ext_getElem (by simp [Instruction.cases]) fun i _ _ => ?_) htargets.symm
    simp [Instruction.cases]

namespace CodeBuilder

variable {cs : List Call} {p : Nat × Emission}

theorem exists_bytesOf {b : CodeBuilder} (place : String → Nat)
    (hfault : (b.calls cs).fault = none) (hp : p ∈ b.emissions cs) :
    ∃ front rest, bytesOf place (b.emissions cs) =
      front ++ ((p.2.pieces p.1).flatMap (Piece.fill place) ++ rest) ∧
        b.length + front.length = p.1 := by
  -- Along the calls, what stands before the emission grows by the bytes of each earlier one.
  induction cs generalizing b with
  | nil => cases hp
  | cons c cs ih =>
    cases c with
    | mark label =>
      rw [← b.length_mark label]
      exact ih hfault hp
    | emit e =>
      have hnext := length_apply (fault_calls (b := e.apply b) hfault)
      rw [emissions, bytesOf, List.flatMap_cons, List.flatMap_append]
      rcases List.mem_cons.1 hp with rfl | hp
      · exact ⟨[], _, rfl, rfl⟩
      · obtain ⟨front, rest, hbytes, hlength⟩ := ih (b := e.apply b) hfault hp
        rw [bytesOf] at hbytes
        refine ⟨(e.pieces b.length).flatMap (Piece.fill place) ++ front, rest, ?_, ?_⟩
        · rw [hbytes, List.append_assoc]
        · rw [List.length_append, Piece.length_flatMap_fill]
          omega

theorem drop_finish {code : Array UInt8} (hcode : (empty.calls cs).finish = .ok code)
    (hsize : code.size < 2 ^ 31) (hp : p ∈ empty.emissions cs) :
    ∃ rest, code.toList.drop p.1 =
      (p.2.pieces p.1).flatMap (Piece.fill (empty.calls cs).place) ++ rest := by
  obtain ⟨front, rest, hbytes, hlength⟩ :=
    exists_bytesOf (empty.calls cs).place (fault_of_finish hcode) hp
  have hfront : front.length = p.1 := (Nat.zero_add _).symm.trans hlength
  rw [(finish_spec hcode hsize).1, hbytes]
  exact ⟨rest, List.drop_left' hfront⟩

end CodeBuilder

namespace Assembly

theorem ends_tableSwitch {s : List Char} {low : Int} {otherwise : String} {targets : List String}
    (hlow : Writes s low) (hne : targets ≠ []) (a : Assembler) :
    ∃ a', Ends (instruction .tableswitch (s :: "default".toList :: otherwise.toList ::
        targets.map String.toList)) a () a' ∧
      a'.builder = a.builder.tableSwitch low otherwise targets := by
  obtain ⟨target, targets, rfl⟩ := List.exists_cons_of_ne_nil hne
  have hinteger : after (integer s) a = (.ok low, a) := by
    rw [integer, show Text.parseInteger? 32 s = some low from hlow]
    rfl
  refine ⟨_, (after_bind_ok hinteger _).trans rfl, ?_⟩
  simp [Function.comp_def]

end Assembly

open CodeBuilder (empty)

/-- A jump table is emitted without an error, by a builder and by a line of text. If its greatest
match is a number of 32 bits, it is read from the code with the matches `low`, `low + 1`, … and the
offsets of their labels. If not, its bounds are read as out of order and the code is refused. -/
theorem tableSwitch_matches (low : Int32) (otherwise : String) {targets : List String}
    (hne : targets ≠ []) :
    (∀ b : CodeBuilder, (b.tableSwitch low.toInt otherwise targets).fault = b.fault) ∧
    (∀ s a, Assembly.Writes s low.toInt → ∃ a',
      Assembly.Ends (Assembly.instruction .tableswitch (s :: "default".toList ::
        otherwise.toList :: targets.map String.toList)) a () a' ∧
      a'.builder = a.builder.tableSwitch low.toInt otherwise targets) ∧
    ∀ cs pos code, (pos, .tableSwitch low otherwise targets) ∈ empty.emissions cs →
      (empty.calls cs).finish = .ok code → code.size < 2 ^ 31 →
      if low.toInt + targets.length ≤ 2 ^ 31 then
        ∃ ins, decodeAt pos (code.toList.drop pos) = .ok ins ∧
          ins.IsJumpTable (empty.calls cs).offset? low.toInt otherwise targets ∧
          ∀ l, decode code.toList = .ok l → ins ∈ l
      else
        decodeAt pos (code.toList.drop pos) =
            .error (.tableBounds pos low.toInt (low.toInt + targets.length - 1 - 2 ^ 32)) ∧
          ∀ l, decode code.toList ≠ .ok l := by
  refine ⟨fun b => ?_, fun s a hlow => Assembly.ends_tableSwitch hlow hne a, ?_⟩
  · show ((Emission.tableSwitch low otherwise targets).apply b).fault = b.fault
    rw [Emission.apply_tableSwitch hne, CodeBuilder.fault_add]
  intro cs pos code hmem hcode hsize
  obtain ⟨rest, hdrop⟩ := CodeBuilder.drop_finish hcode hsize hmem
  obtain ⟨-, hlength, hspec⟩ := CodeBuilder.finish_spec hcode hsize
  obtain ⟨hfits, hplace⟩ := hspec _ hmem
  have hend := CodeBuilder.end_le_of_mem_emissions (CodeBuilder.fault_of_finish hcode) hmem
  dsimp only at hdrop hfits hplace hend
  -- Only the greatest match can leave the range, since the least one is a number of 32 bits.
  have hfit : (Emission.tableSwitch low otherwise targets).MatchesFit ↔
      low.toInt + targets.length ≤ 2 ^ 31 := by
    rw [Emission.MatchesFit]
    omega
  rw [hdrop]
  split
  · next hlast =>
    have hencodable : (Emission.tableSwitch low otherwise targets).IsEncodable := hne
    obtain ⟨ins, hins, -, hread⟩ :=
      Emission.readsBack hencodable (hfit.2 hlast) (by omega) hplace hfits
    refine ⟨ins, hread rest, Emission.isJumpTable hins, fun l hl => ?_⟩
    have hsome : some ins ∈ l.toList.map some := by
      rw [← (CodeBuilder.decode_emissions hcode hsize hl).2]
      exact List.mem_map.2 ⟨_, hmem, hins⟩
    simpa using hsome
  · next hlast =>
    have hbig := mt hfit.1 hlast
    refine ⟨Emission.decodeAt_overrun hbig (by omega) (hplace _ List.mem_cons_self) rest, ?_⟩
    exact fun l hl => hbig (CodeBuilder.matchesFit_of_decode hcode hsize hl _ hmem)

/-- A jump table with two matches, of which the first is the greatest number of 32 bits. -/
def wrappingTable : List Call :=
  [.mark "top", .emit (.tableSwitch 2147483647 "top" ["top", "top"])]

theorem tableSwitch_matches_switchLoop :
    (∃ code ins, (empty.calls CodeBuilder.switchLoop).finish = .ok code ∧
      decodeAt 4 (code.toList.drop 4) = .ok ins ∧
      ins.IsJumpTable (empty.calls CodeBuilder.switchLoop).offset? 2147483646 "done"
        ["top", "next"]) ∧
    ∃ code, (empty.calls wrappingTable).finish = .ok code ∧
      decodeAt 0 (code.toList.drop 0) = .error (.tableBounds 0 2147483647 (-2147483648)) ∧
      ∀ l, decode code.toList ≠ .ok l := by
  have hfits := (@tableSwitch_matches 2147483646 "done" ["top", "next"] (by simp)).2.2
    CodeBuilder.switchLoop 4 _ (by decide +kernel) rfl (by decide +kernel)
  have hwraps := (@tableSwitch_matches 2147483647 "top" ["top", "top"] (by simp)).2.2
    wrappingTable 0 _ (by decide +kernel) rfl (by decide +kernel)
  rw [if_pos (by decide +kernel)] at hfits
  rw [if_neg (by decide +kernel)] at hwraps
  obtain ⟨ins, hread, hins, -⟩ := hfits
  exact ⟨⟨_, ins, rfl, hread, hins⟩, _, rfl, hwraps⟩

/-- The table is built without an error, and its code cannot be read. -/
theorem decode_wrappingTable : (empty.calls wrappingTable).fault = none ∧
    ∃ code, (empty.calls wrappingTable).finish = .ok code ∧
      decode code.toList = .error (.tableBounds 0 2147483647 (-2147483648)) :=
  ⟨rfl, _, rfl, by decide +kernel⟩

end Bytecode
