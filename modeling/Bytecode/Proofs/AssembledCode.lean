import Bytecode.Proofs.Assembling
import Bytecode.Proofs.BuiltCode

/-!
Assembled code is faithful to its text.

The lines of a text are calls of a builder, a mark for each label and an emission for each
instruction, and what a builder builds is read back as what was emitted. So the instructions that
are read from assembled code are those of the lines, and the labels stand where the next
instruction line was put.

Main statement: `assemble_faithful`, what is assembled and can be read is what was written, but for
slips.
-/
namespace Bytecode

open Emission List Piece

theorem Opcode.name_of_ofName? {name : String} {op : Opcode} (h : ofName? name = some op) :
    op.name = name := by
  obtain ⟨i, hi, rfl⟩ := Option.map_eq_some_iff.1 h
  have hfound := (Array.findFinIdx?_eq_some_iff.1 hi).1
  exact beq_iff_eq.1 hfound

/-! ### Jump tables that can be read -/

theorem fitsSigned_wrap32 (n : Int) : fitsSigned 32 (wrap32 n) = true := by
  refine fitsSigned_iff.2 ?_
  rw [wrap32]
  omega

namespace Emission

variable {b : CodeBuilder}

/-- A jump table whose matches run over the numbers of 32 bits seems to end before it begins. -/
theorem decodeAt_overrun {low : Int32} {otherwise : String} {targets : List String} {pos : Nat}
    (hbig : ¬ (tableSwitch low otherwise targets).MatchesFit)
    (hend : pos + (((tableSwitch low otherwise targets).pieces pos).flatMap blank).length <
      2 ^ 31)
    (hplace : b.place otherwise < 2 ^ 31) (rest : List UInt8) :
    decodeAt pos (((tableSwitch low otherwise targets).pieces pos).flatMap (fill b.place) ++
      rest) =
      .error (.tableBounds pos low.toInt (low.toInt + targets.length - 1 - 2 ^ 32)) := by
  have hfill : ((tableSwitch low otherwise targets).pieces pos).flatMap (fill b.place) =
      Opcode.tableswitch.byte :: (List.replicate (switchPadding pos) 0 ++
        ([(b.place otherwise : Int) - pos, low.toInt,
            wrap32 (low.toInt + (targets.length - 1 : Nat))].flatMap bytes4 ++
          (targets.map fun label => (b.place label : Int) - pos).flatMap bytes4)) := by
    simp [pieces, flatMap_map]
  -- Each target takes four bytes of code, so the matches run over only once.
  have hcount : targets.length < 2 ^ 29 := by
    rw [← length_flatMap_fill b.place, hfill, length_cons, length_append,
      length_append, length_flatMap_bytes4, length_flatMap_bytes4, length_map] at hend
    omega
  have hlow := low.toInt_lt
  have hover : ¬ low.toInt + targets.length - 1 ≤ 2 ^ 31 - 1 := hbig
  have hwraps : wrap32 (low.toInt + (targets.length - 1 : Nat)) =
      low.toInt + targets.length - 1 - 2 ^ 32 := by
    rw [wrap32]
    omega
  have hhead : ∀ n ∈ [(b.place otherwise : Int) - pos, low.toInt,
      wrap32 (low.toInt + (targets.length - 1 : Nat))], fitsSigned 32 n = true := by
    simp only [mem_cons, not_mem_nil, or_false]
    rintro n (rfl | rfl | rfl)
    · exact fitsSigned_sub hplace (by omega)
    · exact fitsSigned_toInt low
    · exact fitsSigned_wrap32 _
  rw [hfill, cons_append, decodeAt_byte (by decide), append_assoc, append_assoc]
  obtain ⟨hwords, -⟩ := @read_padded pos _ hhead
    ((targets.map fun label => (b.place label : Int) - pos).flatMap bytes4 ++ rest)
  rw [show Opcode.tableswitch.format = .tableSwitch from rfl, decodeOperand,
    show readWords? 3 _ = _ from hwords]
  simp only
  rw [if_pos (by omega), hwraps]
  rfl

end Emission

namespace CodeBuilder

theorem calls_append (b : CodeBuilder) (cs cs' : List Call) :
    b.calls (cs ++ cs') = (b.calls cs).calls cs' :=
  foldl_append

theorem exists_decodeAt_of_decodeFrom {read result : Array Instruction} {pos : Nat}
    {bytes rest : List UInt8} (h : decodeFrom read pos (bytes ++ rest) = .ok result)
    (hne : bytes ≠ []) : ∃ ins, decodeAt pos (bytes ++ rest) = .ok ins := by
  cases bytes with
  | nil => exact absurd rfl hne
  | cons byte bytes =>
    rw [cons_append, decodeFrom] at h
    rw [cons_append]
    split at h
    · cases h
    · next ins hins => exact ⟨ins, hins⟩

/-- Where code can be read, the matches of its jump tables are numbers of 32 bits. -/
theorem matchesFit_of_decodeFrom {final b : CodeBuilder} {cs : List Call}
    {read result : Array Instruction}
    (hfault : (b.calls cs).fault = none) (hlength : (b.calls cs).length < 2 ^ 31)
    (hplace : ∀ p ∈ b.emissions cs, ∀ label ∈ p.2.labels, final.place label < 2 ^ 31)
    (hfits : ∀ p ∈ b.emissions cs, ∀ piece ∈ p.2.pieces p.1, piece.Fits final)
    (h : decodeFrom read b.length (bytesOf final.place (b.emissions cs)) = .ok result) :
    ∀ p ∈ b.emissions cs, p.2.MatchesFit := by
  induction cs generalizing b read with
  | nil => simp [emissions]
  | cons c cs ih =>
    cases c with
    | mark label =>
      rw [← b.length_mark label] at h
      exact ih hfault hlength hplace hfits h
    | emit e =>
      have happly : (e.apply b).fault = none := fault_calls hfault
      have hnext := length_apply happly
      have hle : (e.apply b).length ≤ _ := length_le_calls hfault
      have hend : (b.calls (.emit e :: cs)).length = ((e.apply b).calls cs).length := rfl
      obtain ⟨hlabels, hplace⟩ := forall_mem_cons.1 hplace
      obtain ⟨hpieces, hfits⟩ := forall_mem_cons.1 hfits
      have hroom : b.length + ((e.pieces b.length).flatMap blank).length < 2 ^ 31 := by omega
      rw [emissions, bytesOf, flatMap_cons, flatMap_append] at h
      have hmatch : e.MatchesFit := by
        cases e with
        | tableSwitch low otherwise targets =>
          by_contra hbig
          obtain ⟨ins, hins⟩ := exists_decodeAt_of_decodeFrom h (by simp [pieces])
          rw [decodeAt_overrun hbig hroom (hlabels otherwise mem_cons_self)] at hins
          cases hins
        | _ => exact trivial
      obtain ⟨ins, -, hsize, hread⟩ := readsBack (apply_eq happly).1 hmatch hroom hlabels hpieces
      rw [decodeFrom_append (hread _) hsize, length_flatMap_fill, ← hnext] at h
      exact forall_mem_cons.2 ⟨hmatch, ih hfault hlength hplace hfits h⟩

end CodeBuilder

/-! ### Lines -/

namespace Assembly

/-- A line: the label that it binds, and the words of its instruction, if there are any. -/
structure Line where
  label : Option String
  words : List (List Char)

/-- The line with the given tokens. -/
def Line.ofTokens : List (List Char) → Line
  | [] => ⟨none, []⟩
  | token :: rest =>
    match label? token with
    | none => ⟨none, token :: rest⟩
    | some chars => ⟨some (String.ofList chars), rest⟩

/-- The labels that the instruction of a line names. -/
def Line.targets (line : Line) : List String :=
  match line.words with
  | [] => []
  | name :: args => (Opcode.ofName? (String.ofList name)).elim [] (Assembly.targets · args)

theorem Line.targets_eq {label : Option String} {name : List Char} {args : List (List Char)}
    {op : Opcode} (h : Opcode.ofName? (String.ofList name) = some op) :
    (Line.mk label (name :: args)).targets = Assembly.targets op args := by
  simp [Line.targets, h]

/-- The lines of a text, if each can be split into tokens. -/
def lines? (src : String) : Option (List Line) :=
  (Text.splitOn '\n' src.toList).mapM fun line => (tokens? line).map Line.ofTokens

/-- The calls that a line makes: a mark for its label, then the emission of its instruction. -/
inductive LineCalls : Line → List Call → Prop
  | blank {label : Option String} : LineCalls ⟨label, []⟩ (label.toList.map .mark)
  | code {label : Option String} {name : List Char} {args : List (List Char)} {op : Opcode}
      {e : Emission} : Opcode.ofName? (String.ofList name) = some op → Belongs op args e →
        LineCalls ⟨label, name :: args⟩ (label.toList.map .mark ++ [.emit e])

variable {a a' : Assembler}

theorem ends_bindLabel {tokens rest : List (List Char)} (h : Ends (bindLabel tokens) a rest a') :
    rest = (Line.ofTokens tokens).words ∧ a'.builder.fault = a.builder.fault ∧
      a' = { a with
        builder := a.builder.calls ((Line.ofTokens tokens).label.toList.map .mark) } := by
  unfold bindLabel at h
  unfold Line.ofTokens
  cases tokens with
  | nil =>
    obtain ⟨rfl, rfl⟩ := ends_pure.1 h
    exact ⟨rfl, rfl, rfl⟩
  | cons token tail =>
    cases hlabel : label? token with simp only [hlabel] at h ⊢
    | none =>
      obtain ⟨rfl, rfl⟩ := ends_pure.1 h
      exact ⟨rfl, rfl, rfl⟩
    | some chars =>
      obtain ⟨state, a₁, hget, h⟩ := ends_bind.1 h
      obtain ⟨rfl, rfl⟩ := ends_get.1 hget
      split at h
      · exact absurd h not_ends_throw
      · next hfree =>
        obtain ⟨_, a₂, hmark, h⟩ := ends_bind.1 h
        obtain ⟨rfl, rfl⟩ := ends_pure.1 h
        obtain rfl := ends_emit.1 hmark
        refine ⟨rfl, ?_, rfl⟩
        rw [CodeBuilder.mark, Option.not_isSome_iff_eq_none.1 hfree]

/-- A line makes its calls, without a misuse, and records the labels that it names. -/
theorem ends_assembleLine {line : List Char} (h : Ends (assembleLine line) a () a') :
    ∃ tokens cs, tokens? line = some tokens ∧ LineCalls (Line.ofTokens tokens) cs ∧
      a'.builder = a.builder.calls cs ∧ (a.builder.fault = none → a'.builder.fault = none) ∧
      a'.line = a.line ∧ a'.uses = (after (use (Line.ofTokens tokens).targets) a).2.uses := by
  unfold assembleLine at h
  split at h
  · next tokens htokens =>
    obtain ⟨words, a₁, hbind, h⟩ := ends_bind.1 h
    obtain ⟨hwords, hfault, rfl⟩ := ends_bindLabel hbind
    generalize hline : Line.ofTokens tokens = parsed at *
    obtain ⟨label, words'⟩ := parsed
    dsimp only at hwords
    subst hwords
    cases words with
    | nil =>
      obtain ⟨-, rfl⟩ := ends_pure.1 h
      refine ⟨tokens, label.toList.map .mark, htokens, ?_, rfl, hfault.trans, rfl, ?_⟩
      · rw [hline]
        exact .blank
      · rw [hline]
        rfl
    | cons name args =>
      dsimp only at h
      split at h
      · next op hop =>
        obtain ⟨_, a₂, hinstruction, h⟩ := ends_bind.1 h
        obtain ⟨e, pool, he, rfl⟩ := emits_instruction op args hinstruction
        obtain ⟨state, a₃, hget, h⟩ := ends_bind.1 h
        obtain ⟨rfl, rfl⟩ := ends_get.1 hget
        split at h
        · exact absurd h not_ends_throw
        · next hnone =>
          obtain ⟨-, rfl⟩ := ends_pure.1 h
          refine ⟨tokens, label.toList.map .mark ++ [.emit e], htokens, ?_, ?_,
            fun _ => Option.eq_none_iff_forall_ne_some.2 hnone, rfl, ?_⟩
          · rw [hline]
            exact .code hop he
          · rw [CodeBuilder.calls_append]
            rfl
          · rw [hline, Line.targets_eq hop, ← he.2]
            rfl
      · exact absurd h not_ends_throw
  · exact absurd h not_ends_throw

theorem mem_use {labels : List String} {label : String} {n : Nat} :
    (label, n) ∈ (after (use labels) a).2.uses ↔
      (label, n) ∈ a.uses ∨ label ∈ labels ∧ n = a.line ∧ ∀ m, (label, m) ∉ a.uses := by
  obtain ⟨b, pool, line, uses⟩ := a
  show _ ∈ labels.foldl _ uses ↔ _
  dsimp only
  induction labels generalizing uses with
  | nil => simp
  | cons first labels ih =>
    rw [foldl_cons, ih]
    by_cases hseen : uses.any (·.1 == first) = true
    · grind
    · grind

/-- The line of the first use of a label, counted from one. -/
def firstUse? (lines : List Line) (label : String) : Option Nat :=
  (lines.findIdx? (label ∈ ·.targets)).map (· + 1)

theorem firstUse?_cons (line : Line) (lines : List Line) (label : String) :
    firstUse? (line :: lines) label =
      if label ∈ line.targets then some 1 else (firstUse? lines label).map (· + 1) := by
  rw [firstUse?, findIdx?_cons]
  split <;> simp_all [firstUse?]

/-- The lines of a text make their calls one after the other, without a misuse, and each label that
they name is recorded with the line of its first use. -/
theorem spec_of_assembleLines {texts : List (List Char)} (h : assembleLines a texts = (none, a')) :
    ∃ lines css, texts.mapM (fun line => (tokens? line).map Line.ofTokens) = some lines ∧
      Forall₂ LineCalls lines css ∧ a'.builder = a.builder.calls css.flatten ∧
      (a.builder.fault = none → a'.builder.fault = none) ∧
      ∀ label n, (label, n) ∈ a'.uses ↔ (label, n) ∈ a.uses ∨
        (∀ m, (label, m) ∉ a.uses) ∧ ∃ k, firstUse? lines label = some k ∧ n = a.line + k := by
  induction texts generalizing a with
  | nil =>
    cases h
    exact ⟨[], [], rfl, .nil, rfl, id, by simp [firstUse?]⟩
  | cons text texts ih =>
    rw [assembleLines] at h
    split at h
    · next a₁ hline =>
      have hends : Ends (assembleLine text) { a with line := a.line + 1 } () a₁ := hline
      obtain ⟨tokens, cs, htokens, hcalls, hbuilder, hfault, hnumber, huses⟩ :=
        ends_assembleLine hends
      obtain ⟨lines, css, hlines, hcss, hrest, hfaults, hrecord⟩ := ih h
      refine ⟨Line.ofTokens tokens :: lines, cs :: css, ?_, .cons hcalls hcss, ?_,
        hfaults ∘ hfault, fun label n => ?_⟩
      · rw [mapM_cons, htokens, hlines]
        rfl
      · rw [hrest, hbuilder, flatten_cons, CodeBuilder.calls_append]
      · rw [hrecord, huses, hnumber, firstUse?_cons]
        simp only [mem_use]
        split
        · grind
        · next hother => simp [hother, Nat.add_assoc, Nat.add_comm 1]
    · cases h

theorem calls_of_assembleLines {texts : List (List Char)} (h : assembleLines a texts = (none, a')) :
    ∃ lines css, texts.mapM (fun line => (tokens? line).map Line.ofTokens) = some lines ∧
      Forall₂ LineCalls lines css ∧ a'.builder = a.builder.calls css.flatten := by
  obtain ⟨lines, css, hlines, hcss, hbuilder, -⟩ := spec_of_assembleLines h
  exact ⟨lines, css, hlines, hcss, hbuilder⟩

/-! ### Instructions and labels -/

/-- Does a line hold an instruction? -/
def Line.hasCode (line : Line) : Bool :=
  !line.words.isEmpty

/-- An instruction is the one of a line: the first word is the mnemonic, and the others are its
operands, unless there is a slip. -/
def Line.Holds (offset? : String → Option Nat) (line : Line) (ins : Instruction) : Prop :=
  ∃ name args op, line.words = name :: args ∧ op.name = String.ofList name ∧
    (Faithful offset? op args ins ↔ ¬ Slip op args ins)

/-- Where the labels of lines are: each at the next instruction, or at the end of the code. -/
def labelPlaces (stop : Nat) : List Line → List Nat → List (String × Nat)
  | [], _ => []
  | line :: lines, places =>
    line.label.toList.map (·, places.headD stop) ++
      labelPlaces stop lines (if line.hasCode then places.tail else places)

end Assembly

namespace CodeBuilder

open Assembly (Line LineCalls Renders labelPlaces)

variable {b : CodeBuilder} {lines : List Line} {css : List (List Call)}

theorem emissions_append (b : CodeBuilder) (cs cs' : List Call) :
    b.emissions (cs ++ cs') = b.emissions cs ++ (b.calls cs).emissions cs' := by
  induction cs generalizing b with
  | nil => rfl
  | cons c cs ih =>
    cases c with
    | mark label => exact ih (b.mark label)
    | emit e => exact congrArg _ (ih (e.apply b))

theorem emissions_marks (b : CodeBuilder) (labels : List String) :
    b.emissions (labels.map .mark) = [] := by
  induction labels generalizing b with
  | nil => rfl
  | cons label labels ih => exact ih (b.mark label)

theorem emissions_of_lines (h : Forall₂ LineCalls lines css) :
    Forall₂ (fun line p => ∃ name args op, line.words = name :: args ∧
        op.name = String.ofList name ∧ Renders op args p.2)
      (lines.filter (·.hasCode)) (b.emissions css.flatten) := by
  induction h generalizing b with
  | nil => exact .nil
  | cons hline _ ih =>
    rw [flatten_cons, emissions_append]
    cases hline with
    | blank =>
      rw [emissions_marks]
      exact ih
    | code hop he =>
      rw [emissions_append, emissions_marks]
      exact .cons ⟨_, _, _, rfl, Opcode.name_of_ofName? hop, he.1⟩ ih

theorem headD_emissions (b : CodeBuilder) (cs : List Call) :
    ((b.emissions cs).map Prod.fst).headD (b.calls cs).length = b.length := by
  induction cs generalizing b with
  | nil => rfl
  | cons c cs ih =>
    cases c with
    | mark label => exact (ih (b.mark label)).trans (b.length_mark label)
    | emit e => rfl

variable {label : String} {cs : List Call} {p : Nat × Emission} {l : Array Instruction}

theorem labels_mark (h : (b.mark label).fault = none) :
    (b.mark label).labels.toList = b.labels.toList ++ [(label, b.length)] := by
  unfold mark at h ⊢
  split
  · next hbound =>
    rw [hbound] at h
    exact absurd h (fault_fail b _)
  · simp

theorem labels_marks {label : Option String}
    (h : (b.calls (label.toList.map .mark)).fault = none) :
    (b.calls (label.toList.map .mark)).labels.toList =
      b.labels.toList ++ label.toList.map (·, b.length) := by
  cases label with
  | none => simp [calls]
  | some label => exact labels_mark h

/-- Each label is bound where the next instruction is, or where the code ends. -/
theorem labels_of_lines (h : Forall₂ LineCalls lines css)
    (hfault : (b.calls css.flatten).fault = none) :
    (b.calls css.flatten).labels.toList = b.labels.toList ++
      labelPlaces (b.calls css.flatten).length lines
        ((b.emissions css.flatten).map Prod.fst) := by
  induction h generalizing b with
  | nil => simp [calls, labelPlaces]
  | @cons line cs lines css hline _ ih =>
    have hhead := headD_emissions b (cs ++ css.flatten)
    rw [flatten_cons] at hfault ⊢
    rw [labelPlaces, hhead]
    rw [calls_append] at hfault ⊢
    rw [ih hfault]
    cases hline with
    | @blank label =>
      rw [labels_marks (fault_calls hfault), emissions_append, emissions_marks, append_assoc]
      rfl
    | @code label name args op e _ _ =>
      have happly : (e.apply (b.calls (label.toList.map .mark))).fault = none := by
        have hline := fault_calls hfault
        rwa [calls_append] at hline
      have hlabels : (b.calls (label.toList.map .mark ++ [.emit e])).labels.toList =
          b.labels.toList ++ label.toList.map (·, b.length) := by
        rw [← labels_marks (fault_apply happly), calls_append]
        show (e.apply _).labels.toList = _
        rw [(apply_eq happly).2, labels_add]
      rw [hlabels, emissions_append, emissions_append, emissions_marks, append_assoc]
      rfl

theorem exists_of_mem_emissions (hp : p ∈ b.emissions cs) :
    ∃ (b' : CodeBuilder) (rest : List Call), b'.length = p.1 ∧
      b.calls cs = (p.2.apply b').calls rest := by
  induction cs generalizing b with
  | nil => cases hp
  | cons c cs ih =>
    cases c with
    | mark label => exact ih hp
    | emit e =>
      rcases mem_cons.1 hp with rfl | hp
      · exact ⟨b, cs, rfl, rfl⟩
      · exact ih hp

theorem isEncodable_of_mem_emissions (hfault : (b.calls cs).fault = none)
    (hp : p ∈ b.emissions cs) : p.2.IsEncodable := by
  obtain ⟨b', rest, -, heq⟩ := exists_of_mem_emissions hp
  rw [heq] at hfault
  exact (apply_eq (fault_calls hfault)).1

theorem end_le_of_mem_emissions (hfault : (b.calls cs).fault = none) (hp : p ∈ b.emissions cs) :
    p.1 + ((p.2.pieces p.1).flatMap blank).length ≤ (b.calls cs).length := by
  obtain ⟨b', rest, hlength, heq⟩ := exists_of_mem_emissions hp
  rw [heq] at hfault ⊢
  rw [← hlength, ← length_apply (fault_calls hfault)]
  exact length_le_calls hfault

theorem le_of_offset? {pos : Nat} (hfault : (empty.calls cs).fault = none)
    (hpos : (empty.calls cs).offset? label = some pos) : pos ≤ (empty.calls cs).length := by
  rcases start_of_offset? hfault hpos with hnone | hend | ⟨p, hp, rfl⟩
  · cases hnone
  · omega
  · have := end_le_of_mem_emissions hfault hp
    omega

/-- Built code is the bytes of its emissions, whose branches fit. -/
theorem finish_spec {code : Array UInt8} (hcode : (empty.calls cs).finish = .ok code)
    (hsize : code.size < 2 ^ 31) :
    code.toList = bytesOf (empty.calls cs).place (empty.emissions cs) ∧
      code.size = (empty.calls cs).length ∧
      ∀ p ∈ empty.emissions cs,
        (∀ piece ∈ p.2.pieces p.1, piece.Fits (empty.calls cs)) ∧
        ∀ label ∈ p.2.labels, (empty.calls cs).place label < 2 ^ 31 := by
  have hfault := fault_of_finish hcode
  have hholds := holds_calls holds_empty hfault
  obtain ⟨hbytes, hfits⟩ := hholds.finish hcode
  have hlength : code.size = (empty.calls cs).length := by
    rw [hholds.length, ← Array.length_toList, hbytes, length_flatMap_fill]
  refine ⟨hbytes, hlength, fun p hp => ?_⟩
  have hpieces : ∀ piece ∈ p.2.pieces p.1, piece.Fits (empty.calls cs) :=
    fun piece hpiece => hfits piece (mem_flatMap.2 ⟨p, hp, hpiece⟩)
  refine ⟨hpieces, fun label hlabel => ?_⟩
  obtain ⟨wide, hhole⟩ : ∃ wide, Piece.hole p.1 label wide ∈ p.2.pieces p.1 :=
    exists_hole (isEncodable_of_mem_emissions hfault hp) hlabel
  have hbound := le_of_offset? hfault (hpieces _ hhole).1
  omega

theorem matchesFit_of_decode {code : Array UInt8} (hcode : (empty.calls cs).finish = .ok code)
    (hsize : code.size < 2 ^ 31) (hread : decode code.toList = .ok l) :
    ∀ p ∈ empty.emissions cs, p.2.MatchesFit := by
  obtain ⟨hbytes, hlength, hspec⟩ := finish_spec hcode hsize
  exact matchesFit_of_decodeFrom (fault_of_finish hcode) (by omega) (fun p hp => (hspec p hp).2)
    (fun p hp => (hspec p hp).1) (hbytes ▸ decodeFrom_of_decode hread)

/-- Built code that can be read is read as what was emitted. -/
theorem decode_emissions {code : Array UInt8} (hcode : (empty.calls cs).finish = .ok code)
    (hsize : code.size < 2 ^ 31) (hread : decode code.toList = .ok l) :
    code.size = (empty.calls cs).length ∧
      (empty.emissions cs).map (fun p => p.2.instruction? (empty.calls cs).offset? p.1) =
        l.toList.map some := by
  obtain ⟨hbytes, hlength, hspec⟩ := finish_spec hcode hsize
  obtain ⟨l', hl', hagain⟩ := decodeFrom_emissions (fault_of_finish hcode) (by omega)
    (matchesFit_of_decode hcode hsize hread) (fun p hp => (hspec p hp).2)
    (fun p hp => (hspec p hp).1)
  have hfrom := decodeFrom_of_decode hread
  rw [hbytes] at hfrom
  have hsame : l = l'.toArray := by
    have htwice : (Except.ok l : Except CodeError _) = .ok (#[] ++ l'.toArray) :=
      hfrom.symm.trans (hagain #[])
    simpa using htwice
  refine ⟨hlength, ?_⟩
  rw [hl', hsame]

end CodeBuilder

/-! ### Assembled code -/

namespace Assembly

/-- The offset of a label in assembled code. -/
def offset? (asm : Assembly) (label : String) : Option Nat :=
  asm.labels.lookup label

theorem lookup_eq_find? (label : String) (l : List (String × Nat)) :
    l.lookup label = (l.find? (·.1 == label)).map Prod.snd := by
  induction l with
  | nil => rfl
  | cons entry l ih =>
    rw [lookup_cons, find?_cons, ih, BEq.comm]
    split <;> simp_all

theorem finish_of_assemble {src : String} {pool pool' : ConstantPool} {asm : Assembly}
    (h : assemble src pool = (.ok asm, pool')) :
    ∃ a, assembleLines { pool } (Text.splitOn '\n' src.toList) = (none, a) ∧
      a.builder.finish = .ok asm.code ∧ a.builder.labels.toList = asm.labels := by
  unfold assemble at h
  dsimp only at h
  split at h
  · cases h
  · next a hlines =>
    refine ⟨a, hlines, ?_⟩
    have hfinish : finish src (Text.splitOn '\n' src.toList) a = .ok asm := congrArg Prod.fst h
    unfold finish at hfinish
    split at hfinish
    · cases hfinish
    · split at hfinish
      · cases hfinish
      · split at hfinish
        · next code hcode =>
          cases hfinish
          exact ⟨hcode, rfl⟩
        · cases hfinish

theorem holds_of_emissions {offset? : String → Option Nat} {lines : List Line}
    {ps : List (Nat × Emission)} {l : List Instruction}
    (h : Forall₂ (fun line p => ∃ name args op, line.words = name :: args ∧
      op.name = String.ofList name ∧ Renders op args p.2) lines ps)
    (hl : ps.map (fun p => p.2.instruction? offset? p.1) = l.map some) :
    Forall₂ (Line.Holds offset?) lines l ∧ ps.map Prod.fst = l.map (·.pos) := by
  induction h generalizing l with
  | nil =>
    rw [map_nil, eq_comm, map_eq_nil_iff] at hl
    subst hl
    exact ⟨.nil, rfl⟩
  | cons hline _ ih =>
    cases l with
    | nil => cases hl
    | cons ins l =>
      rw [map_cons, map_cons, List.cons.injEq] at hl
      obtain ⟨name, args, op, hwords, hname, hrenders⟩ := hline
      obtain ⟨hrest, hplaces⟩ := ih hl.2
      have hexact : Faithful offset? op args ins ↔ ¬ Slip op args ins := by
        constructor
        · intro hfaithful hslip
          exact hslip.not_faithful hfaithful
        · exact (hrenders _ _ _ hl.1).resolve_right
      refine ⟨.cons ⟨name, args, op, hwords, hname, hexact⟩ hrest, ?_⟩
      rw [map_cons, map_cons, hplaces, (pos_of_instruction? hl.1).1]

/-- What is assembled and can be read is what was written: the instructions that are read are those
of the instruction lines, one for each and in their order, and each label is bound to the place of
the next instruction line, or to the end of the code. An instruction has the mnemonic, the numbers
and the labels of its line, unless it is one of three slips. In code from 2 ^ 31 bytes on a branch
may have no room for its offset. -/
theorem assemble_faithful {src : String} {pool pool' : ConstantPool} {asm : Assembly}
    {l : Array Instruction} (h : assemble src pool = (.ok asm, pool'))
    (hread : decode asm.code.toList = .ok l) (hsize : asm.code.size < 2 ^ 31) :
    ∃ lines, lines? src = some lines ∧
      Forall₂ (Line.Holds asm.offset?) (lines.filter (·.hasCode)) l.toList ∧
      asm.labels = labelPlaces asm.code.size lines (l.toList.map (·.pos)) := by
  obtain ⟨a, hrun, hcode, hlabels⟩ := finish_of_assemble h
  obtain ⟨lines, css, hlines, hcalls, hbuilder⟩ := calls_of_assembleLines hrun
  replace hbuilder : a.builder = CodeBuilder.empty.calls css.flatten := hbuilder
  rw [hbuilder] at hcode hlabels
  obtain ⟨hlength, hins⟩ := CodeBuilder.decode_emissions hcode hsize hread
  have hoffset : (CodeBuilder.empty.calls css.flatten).offset? = asm.offset? := by
    funext label
    rw [offset?, ← hlabels, lookup_eq_find?, CodeBuilder.offset?, Array.find?_toList]
  have hfault := CodeBuilder.fault_of_finish hcode
  rw [hoffset] at hins
  obtain ⟨hholds, hplaces⟩ := holds_of_emissions (CodeBuilder.emissions_of_lines hcalls) hins
  refine ⟨lines, hlines, hholds, ?_⟩
  rw [← hlabels, CodeBuilder.labels_of_lines hcalls hfault, hlength, hplaces]
  rfl

/-- A text with labels on both sides of its branches, operands that need more room, and each of the
slips. -/
def feedingText : String :=
  "top:  fload 300\n" ++
  "  tableswitch -1 default done top next ; two matches\n" ++
  "next: ldc #256\n" ++
  "  iinc 3 -129\n" ++
  "  invokeinterface app/Pet.feed(J)V -3\n" ++
  "  newarray 0x10a\n" ++
  "  ldc #7 99\n" ++
  "\n" ++
  "done:\n" ++
  "  goto top\n" ++
  "end:"

/-- The code of the text. -/
def feedingCode : Assembly :=
  ⟨#[196, 23, 1, 44, 170, 0, 0, 0, 0, 0, 0, 42, 255, 255, 255, 255, 0, 0, 0, 0, 255, 255, 255, 252,
      0, 0, 0, 24, 19, 1, 0, 196, 132, 0, 3, 255, 127, 185, 0, 6, 3, 0, 188, 10, 18, 7, 167, 255,
      210],
    [("top", 0), ("next", 28), ("done", 46), ("end", 49)]⟩

/-- The instructions of the text. -/
def feedingInstructions : Array Instruction :=
  #[⟨0, ⟨⟨0x17, by decide⟩⟩, true, .slot 300⟩, ⟨4, .tableswitch, false, .table 46 (-1) [0, 28]⟩,
    ⟨28, .ldcW, false, .const 256⟩, ⟨31, .iinc, true, .increment 3 (-129)⟩,
    ⟨37, .invokeinterface, false, .interfaceCall 6 3⟩, ⟨42, .newarray, false, .element 10⟩,
    ⟨44, .ldc, false, .const 7⟩, ⟨46, ⟨⟨0xa7, by decide⟩⟩, false, .target 0⟩]

theorem assemble_faithful_feedingText :
    (assemble feedingText .empty).1 = .ok feedingCode ∧
      decode feedingCode.code.toList = .ok feedingInstructions ∧
      ∃ lines, lines? feedingText = some lines ∧
        Forall₂ (Line.Holds feedingCode.offset?) (lines.filter (·.hasCode))
          feedingInstructions.toList ∧
        feedingCode.labels =
          labelPlaces feedingCode.code.size lines (feedingInstructions.toList.map (·.pos)) := by
  have hcode : (assemble feedingText .empty).1 = .ok feedingCode := by decide +kernel
  have hread : decode feedingCode.code.toList = .ok feedingInstructions := by decide +kernel
  have hpair : ∀ r : Except SyntaxError Assembly × ConstantPool,
      r.1 = .ok feedingCode → r = (.ok feedingCode, r.2) :=
    fun r h => Prod.ext h rfl
  exact ⟨hcode, hread, assemble_faithful (hpair _ hcode) hread (by decide)⟩

/-- An element code of 266 is written, and one of 10 is read, which makes an array of ints. -/
theorem assemble_newarray_266 :
    (assemble "newarray 266\nareturn" .empty).1 = .ok ⟨#[0xbc, 10, 0xb0], []⟩ ∧
      decode [0xbc, 10, 0xb0] = .ok #[⟨0, .newarray, false, .element 10⟩,
        ⟨2, ⟨⟨0xb0, by decide⟩⟩, false, .none⟩] ∧
      Text.parseInteger? 32 "266".toList = some 266 := by
  decide +kernel

end Assembly

end Bytecode
