import Mathlib.Data.List.MinMax
import Mathlib.Data.Prod.Lex
import Mathlib.Data.String.Basic
import Bytecode.Proofs.AssembledCode

/-!
Labels that are named and not defined.

Of all that a text leaves undefined, the label that is reported is the first by the line of its
first use, and among those of one line the first by the bytes of its name.

Main statement: `undefinedLabel_reported`.
-/
namespace Bytecode

open List

/-! ### The order of names and of their bytes -/

theorem utf8EncodeChar_append_lt {c d : Char} (h : c < d) (l r : List UInt8) :
    String.utf8EncodeChar c ++ l < String.utf8EncodeChar d ++ r := by
  have hlt : c.val.toNat < d.val.toNat := h
  have hmax : d.val.toNat < 0x110000 := by
    have hvalid := d.valid
    simp only [UInt32.isValidChar, Nat.isValidChar] at hvalid
    omega
  -- The bytes after the first are digits to base 64.
  have hdigits : ∀ v : Nat, v / 4096 = v / 64 / 64 ∧ v / 262144 = v / 64 / 64 / 64 := by omega
  unfold String.utf8EncodeChar
  simp only [hdigits]
  split_ifs <;>
    simp only [cons_append, nil_append, cons_lt_cons_iff, UInt8.lt_iff_toNat_lt,
      ← UInt8.toNat_inj, UInt8.toNat_ofNat'] <;>
    omega

theorem flatMap_utf8EncodeChar_le {s t : List Char} (h : ¬ t < s) :
    s.flatMap String.utf8EncodeChar ≤ t.flatMap String.utf8EncodeChar := by
  induction s generalizing t with
  | nil => exact nil_le _
  | cons c s ih =>
    cases t with
    | nil => exact absurd (nil_lt_cons c s) h
    | cons d t =>
      rw [cons_lt_cons_iff, not_or, not_and] at h
      rcases (not_lt.1 h.1).lt_or_eq with hlt | rfl
      · exact List.le_of_lt (utf8EncodeChar_append_lt hlt _ _)
      · exact append_left_le (ih (h.2 rfl))

/-- The bytes of a text. -/
def textBytes (s : String) : List UInt8 :=
  s.toUTF8.data.toList

theorem textBytes_le {s t : String} (h : s ≤ t) : textBytes s ≤ textBytes t := by
  have hbytes : ∀ s, textBytes s = s.toList.flatMap String.utf8EncodeChar := by
    intro s
    rw [textBytes, String.toUTF8_eq_toByteArray, ← s.utf8Encode_toList, List.utf8Encode,
      toList_data_toByteArray]
  rw [hbytes, hbytes]
  exact flatMap_utf8EncodeChar_le (mt String.lt_iff_toList_lt.2 (not_lt.2 h))

/-! ### Labels in built code -/

namespace CodeBuilder

open Assembly (Line LineCalls labelPlaces)

variable {b : CodeBuilder} {pieces : List Piece} {lines : List Line} {css : List (List Call)}
  {label : String}

theorem hole_of_mem_fixups {f : Fixup} {pos : Nat} (h : f ∈ Piece.fixups pos pieces) :
    ∃ base wide, .hole base f.label wide ∈ pieces := by
  fun_induction Piece.fixups pos pieces with
  | case1 => cases h
  | case2 pos l rest ih =>
    obtain ⟨base, wide, hmem⟩ := ih h
    exact ⟨base, wide, mem_cons_of_mem _ hmem⟩
  | case3 pos base label wide rest ih =>
    rcases mem_cons.1 h with rfl | h
    · exact ⟨base, wide, mem_cons_self⟩
    · obtain ⟨base, wide, hmem⟩ := ih h
      exact ⟨base, wide, mem_cons_of_mem _ hmem⟩

/-- Where all labels are bound, only a branch that is too far stops the code from being finished. -/
theorem Holds.failsOnly_finish (h : b.Holds pieces) (hfault : b.fault = none)
    (hbound : ∀ base label wide, .hole base label wide ∈ pieces → b.offset? label ≠ none) :
    FailsOnly (fun e => ∃ label pos, e = .farBranch label pos) b.finish := by
  have hlabels : ∀ f ∈ b.fixups.toList, b.offset? f.label ≠ none := by
    intro f hf
    rw [h.fixups] at hf
    obtain ⟨base, wide, hmem⟩ := hole_of_mem_fixups hf
    exact hbound base f.label wide hmem
  unfold CodeBuilder.finish
  rw [hfault, ← Array.foldlM_toList]
  generalize b.fixups.toList = fixups, b.code = code at hlabels
  induction fixups generalizing code with
  | nil => exact .ok code
  | cons f fixups ih =>
    rw [foldlM_cons]
    refine .bind ?_ fun code _ => ih code fun f hf => hlabels f (mem_cons_of_mem _ hf)
    unfold resolve
    split
    · next hnone => exact absurd hnone (hlabels f mem_cons_self)
    · exact .ite (fun _ => .ok _) fun _ => .ite (fun _ => .ok _) fun _ => .error ⟨_, _, rfl⟩

theorem mem_labels_of_hole {e : Emission} {pos base : Nat} {wide : Bool}
    (h : .hole base label wide ∈ e.pieces pos) : label ∈ e.labels := by
  cases e with
  | branch | tableSwitch => grind [Emission.pieces, Emission.labels]
  | lookupSwitch otherwise keys targets =>
    have htarget : ∀ pair ∈ keys.zip targets, pair.2 ∈ targets :=
      fun pair hpair => (of_mem_zip hpair).2
    grind [Emission.pieces, Emission.labels]
  | _ => simp [Emission.pieces] at h

theorem labels_emissions (h : Forall₂ LineCalls lines css) :
    (b.emissions css.flatten).flatMap (·.2.labels) = lines.flatMap (·.targets) := by
  induction h generalizing b with
  | nil => rfl
  | cons hline _ ih =>
    rw [flatten_cons, emissions_append, flatMap_append, ih, flatMap_cons]
    cases hline with
    | blank =>
      rw [emissions_marks]
      rfl
    | code hop he =>
      rw [emissions_append, emissions_marks, Line.targets_eq hop, ← he.2]
      exact congrArg (· ++ _) (append_nil _)

theorem map_fst_labelPlaces (stop : Nat) (lines : List Line) (places : List Nat) :
    (labelPlaces stop lines places).map Prod.fst = lines.filterMap (·.label) := by
  induction lines generalizing places with
  | nil => rfl
  | cons line lines ih =>
    rw [labelPlaces, map_append, ih, filterMap_cons]
    cases line.label <;> rfl

theorem offset?_eq_none (h : Forall₂ LineCalls lines css)
    (hfault : (empty.calls css.flatten).fault = none) :
    (empty.calls css.flatten).offset? label = none ↔ ∀ line ∈ lines, line.label ≠ some label := by
  have hnames : (empty.calls css.flatten).labels.toList.map Prod.fst =
      lines.filterMap (·.label) := by
    rw [labels_of_lines h hfault, map_append, map_fst_labelPlaces]
    rfl
  have hmem := congrArg (label ∈ ·) hnames
  simp only [mem_map, mem_filterMap] at hmem
  rw [offset?, ← Array.find?_toList, Option.map_eq_none_iff, List.find?_eq_none]
  grind

theorem length_ne_zero (h : Forall₂ LineCalls lines css)
    (hfault : (empty.calls css.flatten).fault = none) {line : Line} (hline : line ∈ lines)
    (hlabel : label ∈ line.targets) : (empty.calls css.flatten).length ≠ 0 := by
  have hmem : label ∈ (empty.emissions css.flatten).flatMap (·.2.labels) := by
    rw [labels_emissions h]
    exact mem_flatMap.2 ⟨line, hline, hlabel⟩
  obtain ⟨p, hp, hlabel⟩ := mem_flatMap.1 hmem
  obtain ⟨wide, hhole⟩ : ∃ wide, Piece.hole p.1 label wide ∈ p.2.pieces p.1 :=
    Emission.exists_hole (isEncodable_of_mem_emissions hfault hp) hlabel
  have hend := end_le_of_mem_emissions hfault hp
  intro hzero
  have hnil : (p.2.pieces p.1).flatMap Piece.blank = [] := eq_nil_of_length_eq_zero (by omega)
  cases wide <;> cases flatMap_eq_nil_iff.1 hnil _ hhole

end CodeBuilder

/-! ### The label that is reported -/

namespace Assembly

variable {src : String} {texts : List (List Char)} {a : Assembler} {pool : ConstantPool}

/-- The place of a use among all: by its line and, on one line, by its label. -/
def useKey (use : String × Nat) : Nat ×ₗ String :=
  toLex use.swap

theorem undefinedUse?_eq_argmin (a : Assembler) : undefinedUse? a =
    (a.uses.filter fun use => (a.builder.offset? use.1).isNone).argmin useKey := by
  unfold undefinedUse? List.argmin
  -- Both are folds, and one step of each keeps the use with the smaller key.
  congr
  funext first use
  cases first with
  | none => rfl
  | some best => simp [List.argAux, usedBefore, useKey, Prod.Lex.toLex_lt_toLex]

theorem undefinedUse?_eq_none :
    undefinedUse? a = none ↔ ∀ use ∈ a.uses, a.builder.offset? use.1 ≠ none := by
  simp [undefinedUse?_eq_argmin, argmin_eq_none, filter_eq_nil_iff]

theorem undefinedUse?_eq_some {use : String × Nat} :
    undefinedUse? a = some use ↔ (use ∈ a.uses ∧ a.builder.offset? use.1 = none) ∧
      ∀ other, other ∈ a.uses ∧ a.builder.offset? other.1 = none → useKey use ≤ useKey other := by
  have hfilter : ∀ use, use ∈ a.uses.filter (fun use => (a.builder.offset? use.1).isNone) ↔
      use ∈ a.uses ∧ a.builder.offset? use.1 = none := by
    simp
  simp only [undefinedUse?_eq_argmin, ← hfilter]
  generalize a.uses.filter _ = l
  constructor
  · intro h
    exact ⟨argmin_mem h, fun other hother => le_of_mem_argmin hother h⟩
  · rintro ⟨huse, hleast⟩
    cases hfirst : l.argmin useKey with
    | none => simp [argmin_eq_none.1 hfirst] at huse
    | some first =>
      -- Two least uses have one key, and a key has no more than one use.
      have hsame : useKey first = useKey use :=
        (le_of_mem_argmin huse hfirst).antisymm (hleast first (argmin_mem hfirst))
      rw [Prod.swap_injective (toLex.injective hsame)]

theorem undefinedUse?_perm {uses : List (String × Nat)} (h : uses.Perm a.uses) :
    undefinedUse? { a with uses } = undefinedUse? a := by
  refine Option.ext fun use => ?_
  simp only [undefinedUse?_eq_some, h.mem_iff]

/-- An error tells of an undefined label. -/
def SyntaxError.IsUndefinedLabel (e : SyntaxError) : Prop :=
  ∃ rest, e.cause.message = "undefined label " ++ rest

theorem not_isUndefinedLabel {e : SyntaxError}
    (h : e.cause = .noInstructions ∨ ∃ label pos, e.cause = .builder (.farBranch label pos)) :
    ¬ e.IsUndefinedLabel := by
  -- The messages differ in their first letters.
  rintro ⟨rest, hrest⟩
  rcases h with hcause | ⟨label, pos, hcause⟩
  · have htext : "no instructions" = "undefined label " ++ rest := by
      rw [← hrest, hcause]
      rfl
    simpa using congrArg (·.toList.head?) htext
  · obtain ⟨tail, htail⟩ : ∃ tail, e.cause.message = "branch to " ++ Text.quote label ++ tail := by
      rw [hcause]
      exact ⟨_, rfl⟩
    simpa using congrArg (·.toList.head?) (htail.symm.trans hrest)

theorem finish_undefinedLabel (hlength : undefinedUse? a ≠ none → a.builder.length ≠ 0)
    (hfinish : undefinedUse? a = none →
      FailsOnly (fun e => ∃ label pos, e = .farBranch label pos) a.builder.finish)
    {e : SyntaxError} : finish src texts a = .error e ∧ e.IsUndefinedLabel ↔
      ∃ label n, undefinedUse? a = some (label, n) ∧
        e = ⟨n, String.ofList (texts[n - 1]?.getD []), .undefinedLabel label⟩ := by
  unfold finish
  cases hfirst : undefinedUse? a with
  | some first =>
    obtain ⟨label, n⟩ := first
    rw [if_neg (hlength (by simp [hfirst]))]
    simp only [Except.error.injEq, Option.some.injEq, Prod.mk.injEq]
    constructor
    · rintro ⟨rfl, -⟩
      exact ⟨label, n, ⟨rfl, rfl⟩, rfl⟩
    · rintro ⟨_, _, ⟨rfl, rfl⟩, rfl⟩
      exact ⟨rfl, _, rfl⟩
  | none =>
    simp only [reduceCtorEq, false_and, exists_false, iff_false, not_and]
    split
    · rintro ⟨⟩
      exact not_isUndefinedLabel (.inl rfl)
    · split
      · rintro ⟨⟩
      · next e' he' =>
        rintro ⟨⟩
        obtain ⟨label, pos, rfl⟩ := hfinish hfirst _ he'
        exact not_isUndefinedLabel (.inr ⟨label, pos, rfl⟩)

theorem firstUse?_ne_none {lines : List Line} {label : String} :
    firstUse? lines label ≠ none ↔ ∃ line ∈ lines, label ∈ line.targets := by
  simp [firstUse?]

/-- A label is named first in a line, and no line defines it. -/
def UndefinedFrom (lines : List Line) (label : String) (n : Nat) : Prop :=
  firstUse? lines label = some n ∧ ∀ line ∈ lines, line.label ≠ some label

theorem finish_of_assembleLines (h : assembleLines { pool } texts = (none, a)) :
    ∃ lines, texts.mapM (fun line => (tokens? line).map Line.ofTokens) = some lines ∧
      (∀ label n, (label, n) ∈ a.uses ∧ a.builder.offset? label = none ↔
        UndefinedFrom lines label n) ∧
      ∀ e, finish src texts a = .error e ∧ e.IsUndefinedLabel ↔
        ∃ label n, undefinedUse? a = some (label, n) ∧
          e = ⟨n, String.ofList (texts[n - 1]?.getD []), .undefinedLabel label⟩ := by
  obtain ⟨lines, css, hlines, hcalls, hbuilder, hfault, hrecord⟩ := spec_of_assembleLines h
  replace hbuilder : a.builder = CodeBuilder.empty.calls css.flatten := hbuilder
  have huses : ∀ label n, (label, n) ∈ a.uses ↔ firstUse? lines label = some n := by simp [hrecord]
  replace hfault := hbuilder ▸ hfault rfl
  refine ⟨lines, hlines, fun label n => and_congr (huses label n) ?_, fun e =>
    finish_undefinedLabel (fun hfound => ?_) fun hnone => ?_⟩
  · rw [hbuilder]
    exact CodeBuilder.offset?_eq_none hcalls hfault
  · obtain ⟨use, huse⟩ := Option.ne_none_iff_exists'.1 hfound
    have hfirst := (huses _ _).1 (undefinedUse?_eq_some.1 huse).1.1
    obtain ⟨line, hline, hlabel⟩ := firstUse?_ne_none.1 (hfirst ▸ Option.some_ne_none _)
    rw [hbuilder]
    exact CodeBuilder.length_ne_zero hcalls hfault hline hlabel
  · have hholds := CodeBuilder.holds_calls CodeBuilder.holds_empty hfault
    rw [← hbuilder] at hholds hfault
    refine hholds.failsOnly_finish hfault fun base label wide hhole => ?_
    -- The label of a hole is named in a line, so its use is recorded and it is bound.
    obtain ⟨p, hp, hpiece⟩ := mem_flatMap.1 hhole
    have hmem : label ∈ (CodeBuilder.empty.emissions css.flatten).flatMap (·.2.labels) :=
      mem_flatMap.2 ⟨p, hp, CodeBuilder.mem_labels_of_hole hpiece⟩
    rw [CodeBuilder.labels_emissions hcalls, mem_flatMap, ← firstUse?_ne_none] at hmem
    obtain ⟨n, hn⟩ := Option.ne_none_iff_exists'.1 hmem
    exact undefinedUse?_eq_none.1 hnone (label, n) ((huses label n).2 hn)

/-- Let all lines of a text assemble. There is an error that tells of an undefined label if and only
if a label is named that no line defines. Then the error is about the first such label, by the
number of the line that names it first and, on one line, by the bytes of the label, and it has that
line's number. It does not depend on the order in which the recorded labels are gone through. -/
theorem undefinedLabel_reported
    (h : assembleLines { pool } (Text.splitOn '\n' src.toList) = (none, a)) :
    ∃ lines, lines? src = some lines ∧
      ((∃ e, (assemble src pool).1 = .error e ∧ e.IsUndefinedLabel) ↔
        ∃ label, (∃ line ∈ lines, label ∈ line.targets) ∧
          ∀ line ∈ lines, line.label ≠ some label) ∧
      (∀ e, (assemble src pool).1 = .error e → e.IsUndefinedLabel →
        ∃ label, e.cause = .undefinedLabel label ∧ UndefinedFrom lines label e.line ∧
          ∀ other n, UndefinedFrom lines other n →
            e.line < n ∨ e.line = n ∧ textBytes label ≤ textBytes other) ∧
      ∀ uses, uses.Perm a.uses →
        finish src (Text.splitOn '\n' src.toList) { a with uses } = (assemble src pool).1 := by
  obtain ⟨lines, hlines, hundefined, hreport⟩ := finish_of_assembleLines h
  have hassemble : (assemble src pool).1 = finish src (Text.splitOn '\n' src.toList) a := by
    rw [assemble, h]
  rw [hassemble]
  refine ⟨lines, hlines, ?_, fun e he hlabel => ?_, fun uses hperm => ?_⟩
  · constructor
    · rintro ⟨e, he⟩
      obtain ⟨label, n, hfirst, -⟩ := (hreport e).1 he
      obtain ⟨hnamed, hnone⟩ := (hundefined label n).1 (undefinedUse?_eq_some.1 hfirst).1
      exact ⟨label, firstUse?_ne_none.1 (hnamed ▸ Option.some_ne_none n), hnone⟩
    · rintro ⟨label, hnamed, hnone⟩
      obtain ⟨n, hn⟩ := Option.ne_none_iff_exists'.1 (firstUse?_ne_none.2 hnamed)
      obtain ⟨huse, hfree⟩ := (hundefined label n).2 ⟨hn, hnone⟩
      have hfound : undefinedUse? a ≠ none := fun hall => undefinedUse?_eq_none.1 hall _ huse hfree
      obtain ⟨first, hfirst⟩ := Option.ne_none_iff_exists'.1 hfound
      exact ⟨_, (hreport _).2 ⟨first.1, first.2, hfirst, rfl⟩⟩
  · obtain ⟨label, n, hfirst, rfl⟩ := (hreport e).1 ⟨he, hlabel⟩
    obtain ⟨huse, hleast⟩ := undefinedUse?_eq_some.1 hfirst
    refine ⟨label, rfl, (hundefined label n).1 huse, fun other m hother => ?_⟩
    have hle := Prod.Lex.toLex_le_toLex.1 (hleast (other, m) ((hundefined other m).2 hother))
    exact hle.imp_right (And.imp_right textBytes_le)
  · rw [finish, undefinedUse?_perm hperm, finish]

/-- A text with three labels that it does not define, two of them first named in one line. -/
def strayText : String :=
  "top: iload 0\n" ++
  "  lookupswitch default zed 1:mid 2:out 3:top\n" ++
  "  goto abc\n" ++
  "mid: goto zed"

theorem undefinedLabel_reported_strayText :
    (assembleLines { pool := .empty } (Text.splitOn '\n' strayText.toList)).1 = none ∧
      (assemble strayText .empty).1 =
        .error ⟨2, "  lookupswitch default zed 1:mid 2:out 3:top", .undefinedLabel "out"⟩ ∧
      ∃ lines, lines? strayText = some lines ∧ UndefinedFrom lines "out" 2 ∧
        ∀ other n, UndefinedFrom lines other n →
          2 < n ∨ 2 = n ∧ textBytes "out" ≤ textBytes other := by
  have hlines :
      (assembleLines { pool := .empty } (Text.splitOn '\n' strayText.toList)).1 = none := by
    decide +kernel
  have herror : (assemble strayText .empty).1 =
      .error ⟨2, "  lookupswitch default zed 1:mid 2:out 3:top", .undefinedLabel "out"⟩ := by
    decide +kernel
  obtain ⟨lines, hread, -, hreported, -⟩ := undefinedLabel_reported (Prod.ext hlines rfl)
  obtain ⟨label, hlabel, hfirst, hleast⟩ := hreported _ herror ⟨_, rfl⟩
  cases hlabel
  exact ⟨hlines, herror, lines, hread, hfirst, hleast⟩

end Assembly

end Bytecode
