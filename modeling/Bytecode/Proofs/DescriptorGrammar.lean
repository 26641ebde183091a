import Bytecode.Proofs.Spelling

/-!
The grammar of descriptors.

A descriptor is read from the front, without looking ahead. Beside the readers stands the grammar,
which says of a whole text whether it is a descriptor, and the two agree: what is read is the one
type whose descriptor is the text. The grammar mentions ASCII characters only, and so it can be put
in characters or in bytes.

Main statements: `FieldType.parse_eq_ok` and `MethodType.parse_eq_ok` for the readers,
`isFieldText_iff` and `isMethodText_iff` for the grammar.
-/
namespace Bytecode

open FieldType List

/-! ### The grammar -/

/-- The letters of the primitive types. -/
def primitiveLetters : List Char :=
  ['Z', 'B', 'C', 'S', 'I', 'J', 'F', 'D']

theorem toNat_lt_of_mem_primitiveLetters : ∀ c ∈ primitiveLetters, c.toNat < 128 := by
  intro c hc
  simp only [primitiveLetters, mem_cons, not_mem_nil, or_false] at hc
  rcases hc with rfl | rfl | rfl | rfl | rfl | rfl | rfl | rfl <;> decide

section Grammar

variable {α : Type} (letter : Char → α)

/-- The letter of a primitive type, or the name of a class up to its semicolon. -/
def IsElementText (d : List α) : Prop :=
  (∃ c ∈ primitiveLetters, d = [letter c]) ∨
    ∃ name, name ≠ [] ∧ letter ';' ∉ name ∧ d = letter 'L' :: (name ++ [letter ';'])

/-- Up to 255 brackets, then an element. -/
def IsFieldText (d : List α) : Prop :=
  ∃ dims element, dims ≤ 255 ∧ IsElementText letter element ∧
    d = List.replicate dims (letter '[') ++ element

variable [DecidableEq α]

/-- The slots of an argument: two for a long or a double, one for all else, arrays of them too. -/
def textSlots (d : List α) : Nat :=
  if d = [letter 'J'] ∨ d = [letter 'D'] then 2 else 1

/-- Arguments in parentheses, of up to 255 slots, then a result, which may be void. -/
def IsMethodText (d : List α) : Prop :=
  ∃ (args : List (List α)) (result : List α), (∀ arg ∈ args, IsFieldText letter arg) ∧
    (IsFieldText letter result ∨ result = [letter 'V']) ∧
    (args.map (textSlots letter)).sum ≤ 255 ∧
    d = letter '(' :: (args.flatten ++ letter ')' :: result)

end Grammar

/-! ### Field descriptors -/

namespace FieldType

/-- A type with a descriptor that can be read. -/
def Expressible (t : FieldType) : Prop :=
  t.Readable ∧ t.dims ≤ 255

theorem parse_eq_ok {desc : String} {t : FieldType} :
    parse desc = .ok t ↔ t.Expressible ∧ t.descriptor = desc := by
  constructor
  · intro h
    exact ⟨readable_of_parse h, descriptor_of_parse h⟩
  · rintro ⟨⟨hreadable, hdims⟩, rfl⟩
    exact parse_descriptor hreadable hdims

theorem exists_first (t : FieldType) :
    ∃ c tail, t.descriptor.toList = c :: tail ∧ c ≠ ')' ∧ c ≠ 'V' := by
  rw [toList_descriptor]
  cases t.dims with
  | zero => cases t.element <;> simp [BaseType.descriptor, String.toList_append]
  | succ n => simp [replicate_succ]

theorem textSlots_descriptor (t : FieldType) : textSlots id t.descriptor.toList = t.size := by
  unfold textSlots size isArray
  rw [toList_descriptor]
  cases hdims : t.dims with
  | zero => cases t.element <;> simp [BaseType.descriptor, String.toList_append]
  | succ n => simp [replicate_succ]

end FieldType

theorem isElementText_iff {cs : List Char} :
    IsElementText id cs ↔
      ∃ t : BaseType, (∀ name ∈ t.className?, IsReadable name) ∧ t.descriptor.toList = cs := by
  constructor
  · rintro (⟨c, hc, rfl⟩ | ⟨name, hne, hsemicolon, rfl⟩)
    · -- Each letter stands for a primitive type, which names no class.
      have hletter : ∃ t : BaseType, t.className? = none ∧ t.descriptor.toList = [c] := by
        simp only [primitiveLetters, mem_cons, not_mem_nil, or_false] at hc
        rcases hc with rfl | rfl | rfl | rfl | rfl | rfl | rfl | rfl
        exacts [⟨.boolean, rfl, rfl⟩, ⟨.byte, rfl, rfl⟩, ⟨.char, rfl, rfl⟩, ⟨.short, rfl, rfl⟩,
          ⟨.int, rfl, rfl⟩, ⟨.long, rfl, rfl⟩, ⟨.float, rfl, rfl⟩, ⟨.double, rfl, rfl⟩]
      obtain ⟨t, hname, hdesc⟩ := hletter
      exact ⟨t, by simp [hname], hdesc⟩
    · refine ⟨.object (String.ofList name), ?_, ?_⟩
      · rintro _ ⟨⟩
        exact ⟨by simpa using hne, by simpa using hsemicolon⟩
      · simp [BaseType.descriptor, String.toList_append]
  · rintro ⟨t, hreadable, rfl⟩
    cases t with
    | object name =>
      obtain ⟨hne, hsemicolon⟩ := hreadable name rfl
      exact .inr ⟨name.toList, by simpa using hne, hsemicolon,
        by simp [BaseType.descriptor, String.toList_append]⟩
    | _ => exact .inl ⟨_, by decide, rfl⟩

/-- The grammar of a field gives what is written for a type. -/
theorem isFieldText_iff {cs : List Char} :
    IsFieldText id cs ↔ ∃ t : FieldType, t.Expressible ∧ t.descriptor.toList = cs := by
  constructor
  · rintro ⟨dims, element, hdims, helement, rfl⟩
    obtain ⟨t, hreadable, rfl⟩ := isElementText_iff.1 helement
    exact ⟨⟨t, dims⟩, ⟨hreadable, hdims⟩, toList_descriptor _⟩
  · rintro ⟨t, ⟨hreadable, hdims⟩, rfl⟩
    exact ⟨t.dims, t.element.descriptor.toList, hdims, isElementText_iff.2 ⟨_, hreadable, rfl⟩,
      t.toList_descriptor⟩

/-! ### Method descriptors -/

namespace MethodType

/-- A method type with a descriptor that can be read, if it does not take too many slots. -/
def Expressible (m : MethodType) : Prop :=
  (∀ t ∈ m.args, t.Expressible) ∧ ∀ t ∈ m.result, t.Expressible

theorem toList_descriptor (m : MethodType) :
    m.descriptor.toList = '(' :: (m.args.flatMap (·.descriptor.toList) ++
      ')' :: (resultDescriptor m.result).toList) := by
  simp [descriptor, String.toList_append, String.toList_join, flatMap_map]

theorem argumentSlots_eq_sum (m : MethodType) : m.argumentSlots = (m.args.map (·.size)).sum := by
  unfold argumentSlots
  rw [sum_eq_foldr, foldr_map]

theorem readArguments_descriptors (whole : String) {args : List FieldType}
    (h : ∀ t ∈ args, t.Expressible) (rest : List Char) :
    readArguments whole (args.flatMap (·.descriptor.toList) ++ ')' :: rest) = .ok (args, rest) := by
  induction args with
  | nil => rw [flatMap_nil, nil_append, readArguments]
  | cons t args ih =>
    obtain ⟨hreadable, hdims⟩ := h t mem_cons_self
    have htail := ih fun s hs => h s (mem_cons_of_mem t hs)
    obtain ⟨c, tail, hlist, hne, -⟩ := t.exists_first
    obtain ⟨lt, hread⟩ := read_descriptor hreadable hdims
      (args.flatMap (·.descriptor.toList) ++ ')' :: rest)
    rw [flatMap_cons, append_assoc]
    -- The text starts with a type, so it is neither empty nor closed.
    rw [readArguments.eq_def]
    split
    · next hs => simp [hlist] at hs
    · next hs =>
      rw [hlist, cons_append, List.cons.injEq] at hs
      exact absurd hs.1 hne
    · split
      · next hr => rw [hread] at hr; cases hr
      · next hr => rw [hread] at hr; cases hr
      · next hr =>
        rw [hread] at hr
        cases hr
        rw [htail]
        rfl

theorem eq_of_readArguments {whole : String} {s rest : List Char} {args : List FieldType}
    (h : readArguments whole s = .ok (args, rest)) :
    (∀ t ∈ args, t.Expressible) ∧ s = args.flatMap (·.descriptor.toList) ++ ')' :: rest := by
  fun_induction readArguments whole s generalizing args rest with
  | case1 => cases h
  | case2 =>
    cases h
    simp
  | case3 => cases h
  | case4 => cases h
  | case5 s _ _ type rest' _ hread ih =>
    obtain ⟨⟨args', rest''⟩, hargs, h⟩ := bind_eq_ok.1 h
    cases h
    obtain ⟨hexpressible, hrest⟩ := ih hargs
    refine ⟨forall_mem_cons.2 ⟨readable_of_read hread, hexpressible⟩, ?_⟩
    have hs := read_eq hread
    dsimp only at hs
    rw [hs, hrest, flatMap_cons, append_assoc]

end MethodType

theorem FieldType.eq_of_read_void {s : List Char} {rest : { rest // rest.length < s.length }}
    (h : read s = .ok (none, rest)) : s = 'V' :: rest.val := by
  refine (brackets_append s).trans ?_
  unfold read at h
  simp only at h
  split at h
  · cases h
  · split at h
    · cases h
    · split at h
      · cases h
      · split at h <;> cases h
    · next tail hs =>
      split at h
      · cases h
      · next hdims =>
        have hzero : (s.takeWhile (· == '[')).length = 0 := by omega
        cases h
        show _ = 'V' :: tail
        rw [hzero, hs]
        rfl
    · split at h <;> cases h

namespace MethodType

theorem read_result {result : Option FieldType} (h : ∀ t ∈ result, t.Expressible) :
    ∃ lt, read (resultDescriptor result).toList = .ok (result, ⟨[], lt⟩) := by
  cases result with
  | none => exact ⟨by decide, rfl⟩
  | some t =>
    obtain ⟨hreadable, hdims⟩ := h t rfl
    have hread := read_descriptor hreadable hdims []
    rwa [append_nil] at hread

theorem eq_of_read_result {s : List Char} {result : Option FieldType}
    {rest : { rest : List Char // rest.length < s.length }}
    (h : read s = .ok (result, rest)) :
    (∀ t ∈ result, t.Expressible) ∧ s = (resultDescriptor result).toList ++ rest.val := by
  cases result with
  | none => exact ⟨by simp, eq_of_read_void h⟩
  | some t =>
    refine ⟨?_, read_eq h⟩
    rintro _ ⟨⟩
    exact readable_of_read h

theorem parse_eq_ok {desc : String} {m : MethodType} :
    parse desc = .ok m ↔ m.Expressible ∧ m.argumentSlots ≤ 255 ∧ m.descriptor = desc := by
  constructor
  · intro h
    unfold parse at h
    split at h
    · next s hdesc =>
      obtain ⟨⟨args, tail⟩, hargs, h⟩ := bind_eq_ok.1 h
      dsimp only at h
      split at h
      · cases h
      · next result rest lt hread =>
        simp only [ite_error_eq_ok, Except.ok.injEq, ne_eq, Decidable.not_not] at h
        obtain ⟨rfl, hslots, rfl⟩ := h
        obtain ⟨hexpressible, rfl⟩ := eq_of_readArguments hargs
        obtain ⟨hresult, htail⟩ := eq_of_read_result hread
        refine ⟨⟨hexpressible, hresult⟩, Nat.not_lt.1 hslots, String.toList_inj.1 ?_⟩
        rw [toList_descriptor, hdesc, htail, append_nil]
    · cases h
  · rintro ⟨⟨hargs, hresult⟩, hslots, rfl⟩
    obtain ⟨lt, hread⟩ := read_result hresult
    unfold parse
    simp only [toList_descriptor, readArguments_descriptors _ hargs, bind, Except.bind, hread]
    rw [if_neg (by simp), if_neg (Nat.not_lt.2 hslots)]

theorem resultDescriptor_inj {result result' : Option FieldType}
    (h : resultDescriptor result = resultDescriptor result') : result = result' := by
  have hvoid : ∀ t : FieldType, t.descriptor ≠ "V" := by
    intro t ht
    obtain ⟨c, tail, hlist, -, hne⟩ := t.exists_first
    rw [ht] at hlist
    exact hne (List.cons.inj hlist).1.symm
  cases result with
  | none =>
    cases result' with
    | none => rfl
    | some t => exact absurd h.symm (hvoid t)
  | some s =>
    cases result' with
    | none => exact absurd h (hvoid s)
    | some t => rw [descriptor_inj h]

theorem descriptor_inj {m m' : MethodType} (h : m.Expressible) (h' : m'.Expressible)
    (heq : m.descriptor = m'.descriptor) : m = m' := by
  have hlist : m.args.flatMap (·.descriptor.toList) ++ ')' :: (resultDescriptor m.result).toList =
      m'.args.flatMap (·.descriptor.toList) ++ ')' :: (resultDescriptor m'.result).toList := by
    have := congrArg String.toList heq
    rw [toList_descriptor, toList_descriptor] at this
    exact (List.cons.inj this).2
  have hargs := readArguments_descriptors "" h.1 (resultDescriptor m.result).toList
  rw [hlist, readArguments_descriptors "" h'.1] at hargs
  simp only [Except.ok.injEq, Prod.mk.injEq] at hargs
  obtain ⟨hargs, hresult⟩ := hargs
  obtain ⟨args, result⟩ := m
  obtain ⟨args', result'⟩ := m'
  rw [show args = args' from hargs.symm,
    show result = result' from resultDescriptor_inj (String.toList_inj.1 hresult.symm)]

end MethodType

/-- The grammar of a method gives what is written for a method type. -/
theorem isMethodText_iff {cs : List Char} :
    IsMethodText id cs ↔
      ∃ m : MethodType, m.Expressible ∧ m.argumentSlots ≤ 255 ∧ m.descriptor.toList = cs := by
  constructor
  · rintro ⟨args, result, hargs, hresult, hslots, rfl⟩
    have htypes : ∃ types : List FieldType, (∀ t ∈ types, t.Expressible) ∧
        types.map (·.descriptor.toList) = args := by
      clear hslots
      induction args with
      | nil => exact ⟨[], by simp, rfl⟩
      | cons arg args ih =>
        obtain ⟨types, htypes, rfl⟩ := ih fun a ha => hargs a (mem_cons_of_mem _ ha)
        obtain ⟨t, ht, rfl⟩ := isFieldText_iff.1 (hargs arg mem_cons_self)
        exact ⟨t :: types, forall_mem_cons.2 ⟨ht, htypes⟩, rfl⟩
    have htype : ∃ type : Option FieldType, (∀ t ∈ type, t.Expressible) ∧
        (MethodType.resultDescriptor type).toList = result := by
      rcases hresult with hresult | rfl
      · obtain ⟨t, ht, rfl⟩ := isFieldText_iff.1 hresult
        exact ⟨some t, by simpa using ht, rfl⟩
      · exact ⟨none, by simp, rfl⟩
    obtain ⟨types, htypes, rfl⟩ := htypes
    obtain ⟨type, htype, rfl⟩ := htype
    refine ⟨⟨types, type⟩, ⟨htypes, htype⟩, ?_, ?_⟩
    · rw [MethodType.argumentSlots_eq_sum]
      simpa [Function.comp_def, textSlots_descriptor] using hslots
    · rw [MethodType.toList_descriptor, flatMap_def]
      rfl
  · rintro ⟨m, ⟨hargs, hresult⟩, hslots, rfl⟩
    refine ⟨m.args.map (·.descriptor.toList), (MethodType.resultDescriptor m.result).toList,
      ?_, ?_, ?_, ?_⟩
    · intro arg harg
      obtain ⟨t, ht, rfl⟩ := mem_map.1 harg
      exact isFieldText_iff.2 ⟨t, hargs t ht, rfl⟩
    · cases hm : m.result with
      | none => exact .inr rfl
      | some t => exact .inl (isFieldText_iff.2 ⟨t, hresult t hm, rfl⟩)
    · rw [MethodType.argumentSlots_eq_sum] at hslots
      simpa [Function.comp_def, textSlots_descriptor] using hslots
    · rw [MethodType.toList_descriptor, flatMap_def]
      rfl

/-! ### The grammar in bytes -/

namespace Spells

variable {cs : List Char} {d : List UInt8}

theorem isElementText (h : Spells cs d) : IsElementText id cs ↔ IsElementText Char.toUInt8 d := by
  have hletters := toNat_lt_of_mem_primitiveLetters
  constructor
  · rintro (⟨c, hc, hcs⟩ | ⟨name, hne, hsemicolon, rfl⟩)
    · exact .inl ⟨c, hc, (h.eq_singleton_iff (hletters c hc)).1 hcs⟩
    · obtain ⟨d', rfl, h'⟩ := of_cons (by decide) h
      obtain ⟨bytes, close, rfl, hname, hclose⟩ := h'.of_append
      rw [(hclose.eq_singleton_iff (by decide)).1 rfl]
      exact .inr ⟨bytes, hname.eq_nil_iff.not.1 hne,
        (hname.mem_iff (by decide)).not.1 hsemicolon, rfl⟩
  · rintro (⟨c, hc, hd⟩ | ⟨bytes, hne, hsemicolon, rfl⟩)
    · exact .inl ⟨c, hc, (h.eq_singleton_iff (hletters c hc)).2 hd⟩
    · obtain ⟨cs', rfl, h'⟩ := cons_right (by decide) h
      obtain ⟨name, after, rfl, hname, hafter⟩ := cut (by decide) h'
      rw [hafter.nil_right]
      exact .inr ⟨name, hname.eq_nil_iff.not.2 hne,
        (hname.mem_iff (by decide)).not.2 hsemicolon, rfl⟩

theorem of_replicate {n : Nat} (h : Spells (List.replicate n '[' ++ cs) d) :
    ∃ d', d = List.replicate n '['.toUInt8 ++ d' ∧ Spells cs d' := by
  induction n generalizing d with
  | zero => exact ⟨d, rfl, h⟩
  | succ n ih =>
    rw [replicate_succ, cons_append] at h
    obtain ⟨d₁, rfl, h₁⟩ := of_cons (by decide) h
    obtain ⟨d', rfl, h'⟩ := ih h₁
    exact ⟨d', rfl, h'⟩

theorem replicate_right {n : Nat} (h : Spells cs (List.replicate n '['.toUInt8 ++ d)) :
    ∃ cs', cs = List.replicate n '[' ++ cs' ∧ Spells cs' d := by
  induction n generalizing cs with
  | zero => exact ⟨cs, rfl, h⟩
  | succ n ih =>
    rw [replicate_succ, cons_append] at h
    obtain ⟨cs₁, rfl, h₁⟩ := cons_right (by decide) h
    obtain ⟨cs', rfl, h'⟩ := ih h₁
    exact ⟨cs', rfl, h'⟩

theorem isFieldText (h : Spells cs d) : IsFieldText id cs ↔ IsFieldText Char.toUInt8 d := by
  constructor
  · rintro ⟨dims, element, hdims, helement, rfl⟩
    obtain ⟨d', rfl, h'⟩ := of_replicate h
    exact ⟨dims, d', hdims, h'.isElementText.1 helement, rfl⟩
  · rintro ⟨dims, element, hdims, helement, rfl⟩
    obtain ⟨cs', rfl, h'⟩ := replicate_right h
    exact ⟨dims, cs', hdims, h'.isElementText.2 helement, rfl⟩

theorem textSlots_eq (h : Spells cs d) : textSlots id cs = textSlots Char.toUInt8 d := by
  unfold textSlots
  simp only [id, h.eq_singleton_iff (c := 'J') (by decide),
    h.eq_singleton_iff (c := 'D') (by decide)]

/-- A descriptor ends with an ASCII character, so the characters can be parted where it ends. -/
theorem part {field : List UInt8} (hfield : IsFieldText Char.toUInt8 field)
    (h : Spells cs (field ++ d)) : ∃ cs₁ cs₂, cs = cs₁ ++ cs₂ ∧ Spells cs₁ field ∧ Spells cs₂ d := by
  have hlast : ∃ (c : Char) (front : List UInt8), c.toNat < 128 ∧ field = front ++ [c.toUInt8] := by
    obtain ⟨dims, element, -, ⟨c, hc, rfl⟩ | ⟨name, -, -, rfl⟩, rfl⟩ := hfield
    · exact ⟨c, _, toNat_lt_of_mem_primitiveLetters c hc, rfl⟩
    · refine ⟨';', List.replicate dims '['.toUInt8 ++ 'L'.toUInt8 :: name, by decide, ?_⟩
      simp
  obtain ⟨c, front, hc, rfl⟩ := hlast
  rw [append_assoc] at h
  obtain ⟨cs₁, cs₂, rfl, h₁, h₂⟩ := cut hc h
  exact ⟨cs₁ ++ [c], cs₂, by simp, h₁.append (.ascii hc .nil), h₂⟩

theorem of_flatten {args : List (List Char)} (h : Spells (args.flatten ++ cs) d) :
    ∃ args' d', d = args'.flatten ++ d' ∧ Forall₂ Spells args args' ∧ Spells cs d' := by
  induction args generalizing d with
  | nil => exact ⟨[], d, rfl, .nil, h⟩
  | cons arg args ih =>
    rw [flatten_cons, append_assoc] at h
    obtain ⟨arg', d₁, rfl, harg, h₁⟩ := h.of_append
    obtain ⟨args', d', rfl, hargs, h'⟩ := ih h₁
    exact ⟨arg' :: args', d', by simp, .cons harg hargs, h'⟩

theorem flatten_right {args : List (List UInt8)} (hargs : ∀ arg ∈ args, IsFieldText Char.toUInt8 arg)
    (h : Spells cs (args.flatten ++ d)) :
    ∃ args' cs', cs = args'.flatten ++ cs' ∧ Forall₂ Spells args' args ∧ Spells cs' d := by
  induction args generalizing cs with
  | nil => exact ⟨[], cs, rfl, .nil, h⟩
  | cons arg args ih =>
    obtain ⟨harg, hargs⟩ := forall_mem_cons.1 hargs
    rw [flatten_cons, append_assoc] at h
    obtain ⟨arg', cs₁, rfl, harg', h₁⟩ := part harg h
    obtain ⟨args', cs', rfl, hargs', h'⟩ := ih hargs h₁
    exact ⟨arg' :: args', cs', by simp, .cons harg' hargs', h'⟩

theorem isFieldTexts {args : List (List Char)} {args' : List (List UInt8)}
    (h : Forall₂ Spells args args') :
    ((∀ arg ∈ args, IsFieldText id arg) ↔ ∀ arg ∈ args', IsFieldText Char.toUInt8 arg) ∧
      args.map (textSlots id) = args'.map (textSlots Char.toUInt8) := by
  induction h with
  | nil => simp
  | cons harg _ ih => simp [harg.isFieldText, harg.textSlots_eq, ih]

theorem isResultText {result : List Char} {result' : List UInt8} (h : Spells result result') :
    (IsFieldText id result ∨ result = ['V']) ↔
      (IsFieldText Char.toUInt8 result' ∨ result' = ['V'.toUInt8]) :=
  or_congr h.isFieldText (h.eq_singleton_iff (by decide))

theorem isMethodText (h : Spells cs d) : IsMethodText id cs ↔ IsMethodText Char.toUInt8 d := by
  constructor
  · rintro ⟨args, result, hargs, hresult, hslots, rfl⟩
    obtain ⟨d₁, rfl, h₁⟩ := of_cons (by decide) h
    obtain ⟨args', d₂, rfl, hargs', h₂⟩ := of_flatten h₁
    obtain ⟨result', rfl, hresult'⟩ := of_cons (by decide) h₂
    obtain ⟨hfields, hsame⟩ := isFieldTexts hargs'
    exact ⟨args', result', hfields.1 hargs, hresult'.isResultText.1 hresult, hsame ▸ hslots, rfl⟩
  · rintro ⟨args, result, hargs, hresult, hslots, rfl⟩
    obtain ⟨cs₁, rfl, h₁⟩ := cons_right (by decide) h
    obtain ⟨args', cs₂, rfl, hargs', h₂⟩ := flatten_right hargs h₁
    obtain ⟨result', rfl, hresult'⟩ := cons_right (by decide) h₂
    obtain ⟨hfields, hsame⟩ := isFieldTexts hargs'
    exact ⟨args', result', hfields.2 hargs, hresult'.isResultText.2 hresult, hsame ▸ hslots, rfl⟩

end Spells

/-! ### Reading bytes -/

namespace BaseType

/-- A type with its class named by the bytes of the name. -/
def encoded : BaseType → BaseType
  | .object name => .object (encodedText name)
  | t => t

theorem descriptor_encoded (t : BaseType) : t.encoded.descriptor = encodedText t.descriptor := by
  cases t with
  | object name =>
    simp only [encoded, descriptor, encodedText_append]
    rw [encodedText_ascii (s := "L") (by simp), encodedText_ascii (s := ";") (by simp)]
  | _ => exact (encodedText_ascii (by simp [encoded, descriptor])).symm

end BaseType

theorem IsReadable.encoded {name : String} (h : IsReadable name) :
    IsReadable (encodedText name) := by
  obtain ⟨hne, hsemicolon⟩ := h
  have hspells := spells_toUTF8 name
  have hbytes := spells_byteText name.toUTF8.toList
  constructor
  · rw [Ne, ← String.toList_eq_nil_iff] at hne ⊢
    rwa [encodedText, hbytes.eq_nil_iff, ← hspells.eq_nil_iff]
  · rwa [encodedText, hbytes.mem_iff (by decide), ← hspells.mem_iff (by decide)]

namespace FieldType

def encoded (t : FieldType) : FieldType :=
  { t with element := t.element.encoded }

theorem descriptor_encoded (t : FieldType) : t.encoded.descriptor = encodedText t.descriptor := by
  have hbrackets : encodedText (String.ofList (List.replicate t.dims '[')) =
      String.ofList (List.replicate t.dims '[') := by
    refine encodedText_ascii fun c hc => ?_
    rw [String.toList_ofList] at hc
    rw [eq_of_mem_replicate hc]
    decide
  rw [descriptor, descriptor, encodedText_append, hbrackets, encoded, t.element.descriptor_encoded]

theorem Expressible.encoded {t : FieldType} (h : t.Expressible) : t.encoded.Expressible := by
  obtain ⟨⟨element, dims⟩, hreadable, hdims⟩ := t, h
  refine ⟨?_, hdims⟩
  cases element with
  | object name =>
    rintro _ ⟨⟩
    exact (hreadable name rfl).encoded
  | _ => exact hreadable

end FieldType

namespace MethodType

def encoded (m : MethodType) : MethodType :=
  ⟨m.args.map FieldType.encoded, m.result.map FieldType.encoded⟩

theorem descriptor_encoded (m : MethodType) : m.encoded.descriptor = encodedText m.descriptor := by
  have hresult : resultDescriptor (m.result.map FieldType.encoded) =
      encodedText (resultDescriptor m.result) := by
    cases m.result with
    | none => exact (encodedText_ascii (by simp [resultDescriptor])).symm
    | some t => exact t.descriptor_encoded
  simp only [descriptor, encoded, encodedText_append, encodedText_join, map_map, hresult,
    Function.comp_def, FieldType.descriptor_encoded]
  rw [encodedText_ascii (s := "(") (by simp), encodedText_ascii (s := ")") (by simp)]

theorem Expressible.encoded {m : MethodType} (h : m.Expressible) : m.encoded.Expressible := by
  refine ⟨fun t ht => ?_, fun t ht => ?_⟩
  · obtain ⟨s, hs, rfl⟩ := mem_map.1 ht
    exact (h.1 s hs).encoded
  · obtain ⟨s, hs, rfl⟩ := Option.map_eq_some_iff.1 ht
    exact (h.2 s hs).encoded

theorem argumentSlots_encoded (m : MethodType) : m.encoded.argumentSlots = m.argumentSlots := by
  have hsize : ∀ t : FieldType, t.encoded.size = t.size := by
    rintro ⟨element, dims⟩
    cases element <;> rfl
  simp only [argumentSlots_eq_sum, encoded, map_map, Function.comp_def, hsize]

end MethodType

/-- Bytes that encode a string are read as the string is, but for the names of classes. -/
theorem parse_encodedText (s : String) :
    (FieldType.parse (encodedText s)).toOption = (FieldType.parse s).toOption.map .encoded ∧
      (MethodType.parse (encodedText s)).toOption =
        (MethodType.parse s).toOption.map .encoded := by
  have hreads : ∀ {α : Type} {x y : Except DescriptorError α} {f : α → α},
      (∀ t, y = .ok t → x = .ok (f t)) → ((∃ t, x = .ok t) → ∃ t, y = .ok t) →
        x.toOption = y.toOption.map f := by
    intro α x y f hto hfrom
    cases y with
    | ok t => rw [hto t rfl]; rfl
    | error e =>
      cases x with
      | error => rfl
      | ok t => obtain ⟨_, ⟨⟩⟩ := hfrom ⟨t, rfl⟩
  have hspells := spells_toUTF8 s
  have hbytes := spells_byteText s.toUTF8.toList
  constructor
  · refine hreads (fun t ht => ?_) fun h => ?_
    · obtain ⟨hexpressible, rfl⟩ := FieldType.parse_eq_ok.1 ht
      exact FieldType.parse_eq_ok.2 ⟨hexpressible.encoded, t.descriptor_encoded⟩
    · have hgrammar := hspells.isFieldText.trans hbytes.isFieldText.symm
      simp only [isFieldText_iff, String.toList_inj, ← FieldType.parse_eq_ok] at hgrammar
      exact hgrammar.2 h
  · refine hreads (fun m hm => ?_) fun h => ?_
    · obtain ⟨hexpressible, hslots, rfl⟩ := MethodType.parse_eq_ok.1 hm
      exact MethodType.parse_eq_ok.2 ⟨hexpressible.encoded, m.argumentSlots_encoded ▸ hslots,
        m.descriptor_encoded⟩
    · have hgrammar := hspells.isMethodText.trans hbytes.isMethodText.symm
      simp only [isMethodText_iff, String.toList_inj, ← MethodType.parse_eq_ok] at hgrammar
      exact hgrammar.2 h

/-- The readers accept the byte strings of the grammar and nothing else, and what they give is the
one type whose descriptor is that byte string. Bytes that encode a string are read as it is. -/
theorem parse_iff_grammar (d : List UInt8) :
    ((∃ t, FieldType.parse (byteText d) = .ok t) ↔ IsFieldText Char.toUInt8 d) ∧
      (∀ t, FieldType.parse (byteText d) = .ok t → t.Expressible ∧ charBytes t.descriptor = d) ∧
      (∀ t : FieldType, t.Expressible → t.descriptor = byteText d →
        FieldType.parse (byteText d) = .ok t) ∧
      ((∃ m, MethodType.parse (byteText d) = .ok m) ↔ IsMethodText Char.toUInt8 d) ∧
      (∀ m, MethodType.parse (byteText d) = .ok m →
        m.Expressible ∧ charBytes m.descriptor = d ∧
          ∀ m' : MethodType, m'.Expressible → m'.descriptor = byteText d → m' = m) ∧
      ∀ s : String, s.toUTF8.toList = d →
        (FieldType.parse (byteText d)).toOption = (FieldType.parse s).toOption.map .encoded ∧
        (MethodType.parse (byteText d)).toOption = (MethodType.parse s).toOption.map .encoded := by
  have hspells := spells_byteText d
  refine ⟨?_, ?_, ?_, ?_, ?_, ?_⟩
  · rw [← hspells.isFieldText, isFieldText_iff]
    simp only [FieldType.parse_eq_ok, String.toList_inj]
  · intro t h
    obtain ⟨ht, hdesc⟩ := FieldType.parse_eq_ok.1 h
    exact ⟨ht, by rw [hdesc, charBytes_byteText]⟩
  · intro t ht hdesc
    exact FieldType.parse_eq_ok.2 ⟨ht, hdesc⟩
  · rw [← hspells.isMethodText, isMethodText_iff]
    simp only [MethodType.parse_eq_ok, String.toList_inj]
  · intro m h
    obtain ⟨hm, -, hdesc⟩ := MethodType.parse_eq_ok.1 h
    refine ⟨hm, by rw [hdesc, charBytes_byteText], ?_⟩
    intro m' hm' hdesc'
    exact MethodType.descriptor_inj hm' hm (hdesc'.trans hdesc.symm)
  · rintro s rfl
    exact parse_encodedText s

/-- A byte that encodes no character is kept, and is not taken for the character of its number. -/
theorem parse_iff_grammar_strayByte :
    ∃ t u, FieldType.parse (byteText [0x4c, 0xe9, 0x3b]) = .ok t ∧
      FieldType.parse (byteText [0x4c, 0xc3, 0xa9, 0x3b]) = .ok u ∧
      charBytes t.descriptor = [0x4c, 0xe9, 0x3b] ∧
      charBytes u.descriptor = [0x4c, 0xc3, 0xa9, 0x3b] ∧
      (FieldType.parse "Lé;").toOption.map .encoded = some u := by
  have hstray : FieldType.parse (byteText [0x4c, 0xe9, 0x3b]) = .ok ⟨.object "é", 0⟩ := by
    decide +kernel
  have hencoded : FieldType.parse (byteText [0x4c, 0xc3, 0xa9, 0x3b]) = .ok ⟨.object "Ã©", 0⟩ := by
    decide +kernel
  obtain ⟨-, hbytes, -⟩ := parse_iff_grammar [0x4c, 0xe9, 0x3b]
  obtain ⟨-, hbytes', -, -, -, hstring⟩ := parse_iff_grammar [0x4c, 0xc3, 0xa9, 0x3b]
  refine ⟨_, _, hstray, hencoded, (hbytes _ hstray).2, (hbytes' _ hencoded).2, ?_⟩
  rw [← (hstring "Lé;" (by decide +kernel)).1, hencoded]
  rfl

end Bytecode
