import Bytecode.Proofs.AssembledCode
import Bytecode.Proofs.PoolAdditions

/-!
Lines that load a whole number: the numerals of four bases, and the constants that they become.

The kind of a literal is told from its last character before its digits are read. A mark of a float
or double is a hexadecimal digit as well, so a numeral that ends with one is taken for a literal of
that kind. The digits before it are then no number of that kind, and the line is an error.

* `Text.parseNatural?_cases`: what a numeral looks like;
* `Text.hex_of_getLast?`: only a hexadecimal numeral ends with a letter;
* `Text.parseReal?_hex`: a hexadecimal numeral without an exponent is no real number;
* `Assembly.after_loadLine`: the line of a literal reads it and emits an instruction;
* `Assembly.load_integer`: what every numeral of 32 or 64 bits is loaded as.
-/
namespace Bytecode

open List

namespace Text

variable {base n bits : Nat} {s digits : List Char} {v : Int}

/-- Is a character a digit of a base, or an underscore between digits? -/
def IsDigitOf (base : Nat) (c : Char) : Prop :=
  c = '_' ∨ ∃ d < base, hexValue? c = some d

/-- A character that can stand in a numeral. -/
def isNumeralChar (c : Char) : Bool :=
  ['_', '-', '+'].contains c || (baseOfMark? c).isSome || (hexValue? c).isSome

theorem IsDigitOf.isNumeralChar {c : Char} (h : IsDigitOf base c) : isNumeralChar c = true := by
  rcases h with rfl | ⟨d, -, hd⟩
  · rfl
  · simp [Text.isNumeralChar, hd]

theorem isDigitOf_of_digitsValue? (h : digitsValue? base s = some n) :
    ∀ c ∈ s, IsDigitOf base c := by
  unfold digitsValue? at h
  -- The fold goes on from the number that the digits before give.
  generalize 0 = start at h
  induction s generalizing start with
  | nil => simp
  | cons c s ih =>
    simp only [foldlM_cons, Option.bind_eq_bind, Option.bind_eq_some_iff] at h
    obtain ⟨next, hc, hrest⟩ := h
    refine forall_mem_cons.2 ⟨?_, ih next hrest⟩
    split at hc
    · next hmark => exact .inl (by simpa using hmark)
    · obtain ⟨d, hd, hc⟩ := Option.bind_eq_some_iff.1 hc
      split at hc
      · next hlt => exact .inr ⟨d, hlt, hd⟩
      · cases hc

theorem parseNatural?_cases (h : parseNatural? s = some n) :
    s = ['0'] ∨ ∃ head base digits, s = head ++ digits ∧ digits ≠ [] ∧
      (∀ c ∈ digits, IsDigitOf base c) ∧
      (head = [] ∧ base = 10 ∨ head = ['0'] ∧ base = 8 ∨
        ∃ mark, head = ['0', mark] ∧ baseOfMark? mark = some base) := by
  have hvalue : ∀ {base digits} {f : Nat → Option Nat},
      (digitsValue? base digits).bind f = some n → ∀ c ∈ digits, IsDigitOf base c := by
    intro base digits f h
    obtain ⟨m, hm, -⟩ := Option.bind_eq_some_iff.1 h
    exact isDigitOf_of_digitsValue? hm
  unfold parseNatural? at h
  dsimp only at h
  split at h
  · cases h
  · next c d rest =>
    split at h
    · next base hbase =>
      exact .inr ⟨['0', c], base, d :: rest, rfl, by simp, hvalue h, .inr (.inr ⟨c, rfl, hbase⟩)⟩
    · exact .inr ⟨['0'], 8, c :: d :: rest, rfl, by simp, hvalue h, .inr (.inl ⟨rfl, rfl⟩)⟩
  · next rest _ =>
    cases rest with
    | nil => exact .inl rfl
    | cons c rest =>
      exact .inr ⟨['0'], 8, c :: rest, rfl, by simp, hvalue h, .inr (.inl ⟨rfl, rfl⟩)⟩
  · next hne _ _ => exact .inr ⟨[], 10, s, rfl, hne, hvalue h, .inl ⟨rfl, rfl⟩⟩

/-- What may stand before the digits of a numeral. -/
def signs : List (List Char) :=
  [[], ['-'], ['+']]

theorem exists_sign (h : parseInteger? bits s = some v) :
    ∃ sign ∈ signs, ∃ unsigned n, s = sign ++ unsigned ∧ parseNatural? unsigned = some n := by
  obtain ⟨n, hn, -⟩ := Option.bind_eq_some_iff.1 h
  split at hn
  · exact ⟨['-'], by decide, _, n, rfl, hn⟩
  · exact ⟨['+'], by decide, _, n, rfl, hn⟩
  · exact ⟨[], by decide, s, n, rfl, hn⟩

theorem isNumeralChar_of_parseInteger? (h : parseInteger? bits s = some v) :
    s ≠ [] ∧ ∀ c ∈ s, isNumeralChar c = true := by
  obtain ⟨sign, hsign, unsigned, n, rfl, hn⟩ := exists_sign h
  have hsigns : signs.all (·.all isNumeralChar) = true := rfl
  have hsign := all_eq_true.1 (all_eq_true.1 hsigns sign hsign)
  have hunsigned : unsigned ≠ [] ∧ ∀ c ∈ unsigned, isNumeralChar c = true := by
    rcases parseNatural?_cases hn with rfl | ⟨head, base, digits, rfl, hne, hdigits, hhead⟩
    · exact ⟨cons_ne_nil _ _, forall_mem_singleton.2 rfl⟩
    · refine ⟨by simp [hne], forall_mem_append.2 ⟨?_, fun c hc => ?_⟩⟩
      case refine_2 => exact (hdigits c hc).isNumeralChar
      rcases hhead with ⟨rfl, -⟩ | ⟨rfl, -⟩ | ⟨mark, rfl, hmark⟩
      · simp
      · exact forall_mem_singleton.2 rfl
      · simp [isNumeralChar, hmark, show (hexValue? '0').isSome = true from rfl]
  exact ⟨by simp [hunsigned.1], forall_mem_append.2 ⟨hsign, hunsigned.2⟩⟩

theorem hex_of_getLast? {c : Char} {d : Nat} (h : parseInteger? bits s = some v)
    (hlast : s.getLast? = some c) (hc : hexValue? c = some d) (hd : 10 ≤ d) :
    ∃ sign ∈ signs, ∃ mark digits, s = sign ++ '0' :: mark :: digits ∧
      (mark = 'x' ∨ mark = 'X') ∧ digits ≠ [] ∧ ∀ c ∈ digits, IsDigitOf 16 c := by
  obtain ⟨sign, hsign, unsigned, n, rfl, hn⟩ := exists_sign h
  rcases parseNatural?_cases hn with rfl | ⟨head, base, digits, rfl, hne, hdigits, hhead⟩
  · rw [getLast?_concat] at hlast
    cases hlast
    cases hc
    omega
  · -- The last character is a digit of the base, and its value is ten or more.
    have hbase : 10 < base := by
      rw [← append_assoc, getLast?_append_of_ne_nil _ hne] at hlast
      rcases hdigits c (mem_of_getLast? hlast) with rfl | ⟨d', hlt, hd'⟩
      · cases hc
      · cases hc.symm.trans hd'
        omega
    rcases hhead with ⟨rfl, rfl⟩ | ⟨rfl, rfl⟩ | ⟨mark, rfl, hmark⟩
    · omega
    · omega
    · have hx : (mark = 'x' ∨ mark = 'X') ∧ base = 16 := by
        unfold baseOfMark? at hmark
        split at hmark <;> cases hmark <;> first | omega | simp
      rw [hx.2] at hdigits
      exact ⟨sign, hsign, mark, digits, rfl, hx.1, hne, hdigits⟩

theorem Mantissa.read_digits (h : ∀ c ∈ s, IsDigitOf base c) (m : Mantissa) :
    ∃ m', m.read base s = (m', []) := by
  induction s generalizing m with
  | nil => exact ⟨m, rfl⟩
  | cons c s ih =>
    obtain ⟨hc, hs⟩ := forall_mem_cons.1 h
    rw [read]
    rcases hc with rfl | ⟨d, hlt, hd⟩
    · exact ih hs m
    · have hmark : (c == '_') = false := by
        rw [beq_eq_false_iff_ne]
        rintro rfl
        cases hd
      have hpoint : (c == '.') = false := by
        rw [beq_eq_false_iff_ne]
        rintro rfl
        cases hd
      simp only [hmark, hpoint, hd, Bool.false_eq_true, if_false, if_pos hlt]
      exact ih hs _

theorem parseReal?_hex {sign : List Char} {mark : Char} (hsign : sign ∈ signs)
    (hmark : mark = 'x' ∨ mark = 'X') (hdigits : ∀ c ∈ digits, IsDigitOf 16 c) :
    parseReal? (sign ++ '0' :: mark :: digits) = none := by
  simp only [signs, mem_cons, not_mem_nil, or_false] at hsign
  have hfinite : parseFinite? (sign ++ '0' :: mark :: digits) = none := by
    cases digits with
    | nil => rcases hsign with rfl | rfl | rfl <;> rcases hmark with rfl | rfl <;> decide
    | cons c rest =>
      -- All digits are read, so nothing is left for the exponent, without which there is no number.
      obtain ⟨m, hm⟩ := Mantissa.read_digits hdigits {}
      rcases hsign with rfl | rfl | rfl <;> rcases hmark with rfl | rfl <;>
        simp [parseFinite?, splitSign, hm]
  refine Eq.trans ?_ hfinite
  rcases hsign with rfl | rfl | rfl <;> simp [parseReal?, splitSign]

end Text

/-- `ldc2_w`. -/
def Opcode.ldc2W : Opcode := ⟨⟨0x14, by decide⟩⟩

namespace Assembly

/-- The instruction that loads a number: one for longs and doubles, and one for the others. -/
def loader (wide : Bool) : Opcode :=
  if wide then .ldc2W else .ldc

variable {s line : List Char} {a : Assembler} {v : Int} {op : Opcode} {wide : Bool}

/-! ### Lines of literals -/

theorem foldl_scanStep_word {seen : List Char} {tokens : List (List Char)}
    (hgap : ∀ c ∈ s, isGap c = false) :
    s.foldl scanStep (.word seen, tokens) = (.word (s.reverse ++ seen), tokens) := by
  induction s generalizing seen with
  | nil => rfl
  | cons c s ih =>
    obtain ⟨hc, hs⟩ := forall_mem_cons.1 hgap
    rw [foldl_cons, scanStep, if_neg (by simp [hc]), ih hs, reverse_cons, append_assoc]
    rfl

/-- Characters that divide a line into tokens, or that tell other literals from numbers. -/
def marks : List Char :=
  [' ', '\t', '\r', ';', '"', '#', 'l', 'm']

theorem not_mem_of_isNumeralChar {c : Char} (h : Text.isNumeralChar c = true ∨ c = 'L') :
    c ∉ marks := by
  have hothers : marks.all (fun x => !(Text.isNumeralChar x || x == 'L')) = true := rfl
  intro hc
  have hother := all_eq_true.1 hothers c hc
  simp_all

theorem tokens?_append {tokens : List (List Char)}
    (hline : line.foldl scanStep (.between, []) = (.between, tokens)) (hne : s ≠ [])
    (hs : ∀ c ∈ s, c ∉ marks) : tokens? (line ++ s) = some (tokens.reverse ++ [s]) := by
  have hgap : ∀ c ∈ s, isGap c = false := by
    intro c hc
    have := hs c hc
    simp_all [isGap, marks]
  obtain ⟨c, rest, rfl⟩ := exists_cons_of_ne_nil hne
  obtain ⟨hc, -⟩ := forall_mem_cons.1 hs
  obtain ⟨hfirst, hrest⟩ := forall_mem_cons.1 hgap
  have hscan : (line ++ c :: rest).foldl scanStep (.between, []) =
      (.word (rest.reverse ++ [c]), tokens) := by
    rw [foldl_append, hline, foldl_cons, scanStep, if_neg (by simp [hfirst]),
      if_neg (by rintro h; simp_all [marks]), if_neg (by rintro h; simp_all [marks])]
    exact foldl_scanStep_word hrest
  rw [tokens?, hscan]
  simp

theorem literal_eq (op : Opcode) (wide : Bool) (hs : ∀ c ∈ s, c ∉ marks) :
    literal op wide s [] = numberLiteral wide s := by
  have hnot : ∀ {x word}, x ∈ marks → x ∈ word → s ≠ word := by
    rintro x _ hx hmem rfl
    exact hs x hmem hx
  unfold literal
  split
  · next digits => exact absurd rfl (hnot (x := '#') (by decide) mem_cons_self)
  · rw [if_neg (hnot (x := 'l') (by decide) (by decide)),
      if_neg (hnot (x := 'm') (by decide) (by decide)), if_neg (by simp)]
    split
    · exact absurd rfl (hnot (x := '"') (by decide) mem_cons_self)
    · rfl

/-- The line of a number reads it, and then emits an instruction that loads it. -/
theorem after_loadLine (hline : line = (loader wide).name.toList ++ [' ']) (a : Assembler)
    (hne : s ≠ []) (hs : ∀ c ∈ s, Text.isNumeralChar c = true ∨ c = 'L') :
    (∀ c a', after (numberLiteral wide s) a = (.error c, a') →
      after (assembleLine (line ++ s)) a = (.error c, a')) ∧
    ∀ index a', after (numberLiteral wide s) a = (.ok index, a') →
      after (assembleLine (line ++ s)) a =
        ((a'.builder.const (loader wide) index).fault.elim (.ok ())
            fun e => .error (.builder e),
          { a' with builder := a'.builder.const (loader wide) index }) := by
  have hchars : ∀ c ∈ s, c ∉ marks := fun c hc => not_mem_of_isNumeralChar (hs c hc)
  obtain ⟨hscan, hlabel, hop, hinstruction⟩ :
      line.foldl scanStep (.between, []) = (.between, [(loader wide).name.toList]) ∧
      label? (loader wide).name.toList = none ∧
      Opcode.ofName? (String.ofList (loader wide).name.toList) = some (loader wide) ∧
      instruction (loader wide) [s] = numberLiteral wide s >>= fun index =>
        emit (·.const (loader wide) index) := by
    rw [← literal_eq (loader wide) wide hchars, hline]
    -- Both instructions are known, so what is left is evaluation.
    cases wide
    · exact ⟨rfl, rfl, by decide +kernel, rfl⟩
    · exact ⟨rfl, rfl, by decide +kernel, rfl⟩
  generalize (loader wide).name.toList = name at hscan hlabel hop
  have hbind : after (bindLabel [name, s]) a = (.ok [name, s], a) := by
    simp only [bindLabel, hlabel]
    rfl
  rw [assembleLine, tokens?_append hscan hne hchars]
  simp only [reverse_singleton, singleton_append]
  rw [after_bind_ok hbind]
  simp only [hop, hinstruction]
  refine ⟨fun c a' h => after_bind_error (after_bind_error h _) _, fun index a' h => ?_⟩
  refine (after_bind_ok ((after_bind_ok h _).trans rfl) _).trans ?_
  refine (after_bind_ok rfl _).trans ?_
  dsimp only
  cases (a'.builder.const (loader wide) index).fault <;> rfl

/-- A number whose last digit is a mark is taken for the literal of that mark. -/
theorem after_numberLiteral (h : Text.parseInteger? 32 s = some v) (a : Assembler) :
    after (numberLiteral false s) a =
      if s.getLast? ∈ [some 'f', some 'F'] then (.error (.floatLiteral (String.ofList s)), a)
      else if s.getLast? ∈ [some 'd', some 'D'] then
        (.error (.doubleNeedsWide (String.ofList s)), a)
      else after (intern (·.addInteger (Int32.ofInt v))) a := by
  obtain ⟨hne, hs⟩ := Text.isNumeralChar_of_parseInteger? h
  obtain ⟨c, hlast⟩ : ∃ c, s.getLast? = some c := ⟨_, getLast?_eq_some_getLast hne⟩
  have hother {x : Char} (hx : Text.isNumeralChar x = false) : c ≠ x := by
    rintro rfl
    exact Bool.false_ne_true (hx.symm.trans (hs c (mem_of_getLast? hlast)))
  have hL : c ≠ 'L' := hother rfl
  have hl : c ≠ 'l' := hother rfl
  unfold numberLiteral
  simp only [hlast, Option.getD_some, beq_iff_eq, Bool.or_eq_true, hL, hl, or_self, if_false,
    Bool.false_and, Bool.false_eq_true, or_false, Bool.not_false, if_true, h, mem_cons,
    not_mem_nil, Option.some.injEq]
  split
  · next hmark =>
    obtain ⟨sign, hsign, mark, digits, rfl, hx, hne, hdigits⟩ :=
      Text.hex_of_getLast? h hlast (d := 15) (by rcases hmark with rfl | rfl <;> rfl) (by decide)
    have hreal : Text.parseReal? (sign ++ '0' :: mark :: digits).dropLast = none := by
      rw [dropLast_append_of_ne_nil (by simp), dropLast_cons_of_ne_nil (by simp),
        dropLast_cons_of_ne_nil hne]
      exact Text.parseReal?_hex hsign hx fun c hc => hdigits c (dropLast_subset _ hc)
    simp only [hreal]
    rfl
  · split <;> rfl

/-- A line loads a constant: the pool is extended so that it holds the constant, and the code by an
instruction that names its index. An index of more than two bytes is an error. -/
def Loads (line : List Char) (op : Opcode) (c : Constant) (a : Assembler) : Prop :=
  ∃ pool index, a.pool.Extends pool ∧ pool.Holds index c ∧
    if index ≤ 0xffff then
      ∃ bytes, after (assembleLine line) a =
          (.ok (), { a with pool, builder := a.builder.raw bytes }) ∧
        ∀ pos rest, decodeAt pos (bytes ++ rest) =
          .ok ⟨pos, widened op index, false, .const index⟩
    else after (assembleLine line) a = (.error (.builder (.poolRange op index)),
      { a with pool, builder := a.builder.fail (.poolRange op index) })

theorem const_raw {index : Nat} (b : CodeBuilder) (hop : op = .ldc ∨ op.format = .const16)
    (hpos : 0 < index) (hroom : index ≤ 0xffff) : ∃ bytes, b.const op index = b.raw bytes ∧
      ∀ pos rest, decodeAt pos (bytes ++ rest) =
        .ok ⟨pos, widened op index, false, .const index⟩ := by
  have he : (Emission.const op index).IsEncodable := ⟨hop, fitsPool_iff.2 ⟨by omega, by omega⟩⟩
  refine ⟨_, (Emission.apply_const hop).trans (if_pos he.2), fun pos rest => ?_⟩
  obtain ⟨ins, hins, -, hread⟩ := @Emission.readsBack_const b.offset? pos _ _ he
  rw [hread rest, ← opcode_const]
  exact congrArg _ (Option.some.inj hins).symm

theorem loads_of_add (hline : line = (loader wide).name.toList ++ [' ']) (hne : s ≠ [])
    (hs : ∀ c ∈ s, Text.isNumeralChar c = true ∨ c = 'L') {c : Constant} (hc : c.isFloating = false)
    (hpool : a.pool.Sound) (hfault : a.builder.fault = none) (h : after (numberLiteral wide s) a =
      (.ok ((a.pool.add c).2 : Int), { a with pool := (a.pool.add c).1 })) :
    Loads (line ++ s) (loader wide) c a := by
  have hafter := (after_loadLine hline a hne hs).2 _ _ h
  have hholds : (a.pool.add c).1.Holds (a.pool.add c).2 c := ConstantPool.holds_add_self hc
  have hextends := a.pool.extends_add c
  generalize a.pool.add c = added at hafter hholds hextends
  obtain ⟨pool, index⟩ := added
  dsimp only at hafter hholds hextends
  have hpos : 0 < index := by
    refine Nat.pos_of_ne_zero ?_
    rintro rfl
    have hzero := (hextends.slots_eq hpool.pos).trans hpool.zero
    cases hzero.symm.trans hholds
  have hop : loader wide = .ldc ∨ (loader wide).format = .const16 := by
    cases wide
    · exact .inl rfl
    · exact .inr rfl
  refine ⟨pool, index, hextends, hholds, ?_⟩
  split
  · next hroom =>
    obtain ⟨bytes, hraw, hread⟩ := const_raw a.builder hop hpos hroom
    refine ⟨bytes, ?_, hread⟩
    rw [hafter, hraw, show (a.builder.raw bytes).fault = none from hfault]
    rfl
  · next hroom =>
    have hfail : a.builder.const (loader wide) index =
        a.builder.fail (.poolRange (loader wide) index) :=
      (Emission.apply_const hop).trans (if_neg (by rw [fitsPool_iff]; omega))
    rw [hafter, hfail, show (a.builder.fail _).fault = _ from congrArg (· <|> _) hfault]
    rfl

/-- A numeral of 32 bits is loaded as the int that it writes, unless its last digit is taken for the
mark of a float or double, which makes it an error. A numeral of 64 bits with the mark of a long is
loaded as the long that it writes. -/
theorem load_integer {s : List Char} {a : Assembler} (hpool : a.pool.Sound)
    (hfault : a.builder.fault = none) :
    (∀ v, Text.parseInteger? 32 s = some v →
      (s.getLast? ∈ [some 'f', some 'F'] → after (assembleLine ("ldc ".toList ++ s)) a =
        (.error (.floatLiteral (String.ofList s)), a)) ∧
      (s.getLast? ∈ [some 'd', some 'D'] → after (assembleLine ("ldc ".toList ++ s)) a =
        (.error (.doubleNeedsWide (String.ofList s)), a)) ∧
      (s.getLast? ∉ [some 'f', some 'F', some 'd', some 'D'] →
        ∃ k : Int32, k.toInt = v ∧ Loads ("ldc ".toList ++ s) .ldc (.integer k) a)) ∧
    ∀ v, Text.parseInteger? 64 s = some v →
      ∃ k : Int64, k.toInt = v ∧ Loads ("ldc2_w ".toList ++ (s ++ ['L'])) .ldc2W (.long k) a := by
  refine ⟨fun v hv => ?_, fun v hv => ?_⟩
  · obtain ⟨hne, hs⟩ := Text.isNumeralChar_of_parseInteger? hv
    have hchars : ∀ c ∈ s, Text.isNumeralChar c = true ∨ c = 'L' := fun c hc => .inl (hs c hc)
    have hnumber := after_numberLiteral hv a
    have hname : "ldc ".toList = (loader false).name.toList ++ [' '] := rfl
    have hrefused := (after_loadLine hname a hne hchars).1
    refine ⟨fun hlast => hrefused _ _ ?_, fun hlast => hrefused _ _ ?_, fun hlast => ?_⟩
    · rw [hnumber, if_pos hlast]
    · rw [hnumber, if_neg ?_, if_pos hlast]
      rcases mem_pair.1 hlast with hlast | hlast <;> rw [hlast] <;> decide
    · obtain ⟨k, hk⟩ := Writes.exists_int32 hv
      refine ⟨k, hk, loads_of_add hname hne hchars rfl hpool hfault ?_⟩
      rw [hnumber, if_neg (by simp_all), if_neg (by simp_all), ← hk, Int32.ofInt_toInt]
      rfl
  · obtain ⟨hne, hs⟩ := Text.isNumeralChar_of_parseInteger? hv
    obtain ⟨hge, hlt⟩ := fitsSigned_iff.1 (fitsSigned_of_parseInteger? hv)
    have hchars : ∀ c ∈ s ++ ['L'], Text.isNumeralChar c = true ∨ c = 'L' := by
      simp only [mem_append, mem_singleton]
      exact fun c hc => hc.imp_left (hs c)
    have hnumber : after (numberLiteral true (s ++ ['L'])) a =
        after (intern (·.addLong (Int64.ofInt v))) a := by
      simp [numberLiteral, hv]
    exact ⟨Int64.ofInt v, Int64.toInt_ofInt_of_le hge hlt,
      @loads_of_add _ _ _ true rfl (by simp) hchars _ rfl hpool hfault hnumber⟩

/-- A negative numeral with underscores, in base 2, loads -5. -/
theorem load_integer_binary :
    (ConstantPool.empty.Sound ∧ CodeBuilder.empty.fault = none) ∧
    (Text.parseInteger? 32 "-0b_1_01".toList = some (-5) ∧ ∃ k : Int32, k.toInt = -5 ∧
      Loads ("ldc ".toList ++ "-0b_1_01".toList) .ldc (.integer k) { pool := .empty }) ∧
    Text.parseInteger? 64 "-0b_1_01".toList = some (-5) ∧ ∃ k : Int64, k.toInt = -5 ∧
      Loads ("ldc2_w ".toList ++ ("-0b_1_01".toList ++ ['L'])) .ldc2W (.long k)
        { pool := .empty } := by
  have hspelled : Text.parseInteger? 32 "-0b_1_01".toList = some (-5) ∧
      Text.parseInteger? 64 "-0b_1_01".toList = some (-5) := by decide +kernel
  obtain ⟨hint, hlong⟩ := @load_integer "-0b_1_01".toList { pool := .empty }
    ConstantPool.sound_empty rfl
  exact ⟨⟨ConstantPool.sound_empty, rfl⟩,
    ⟨hspelled.1, (hint _ hspelled.1).2.2 (by decide)⟩, hspelled.2, hlong _ hspelled.2⟩

/-- The numeral `0xf` writes 15, and its last digit is taken for the mark of a float. -/
theorem assemble_ldc_0xf :
    (assemble "ldc 0xf\nireturn" .empty).1 = .error ⟨1, "ldc 0xf", .floatLiteral "0xf"⟩ ∧
    Text.parseInteger? 32 "0xf".toList = some 15 := by
  decide +kernel

end Assembly

end Bytecode
