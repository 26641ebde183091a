import Bytecode.Proofs.Failing

/-!
What is added to a constant pool stays there and is read back.

An addition appends entries that refer to each other by their indices, and shares those that are
there already, which it looks up in the index of the pool. So an index stands for what was added
under it as long as nothing moves, and for nothing else as long as no entry is there twice.

* `mem_index`: what is looked up is what the table holds;
* `Denotes.unique`, `Denotes.inj`: an entry stands for one addition, and an addition for one entry;
* `additions_readBack`: so each index reads back as what it was given for, whatever is added later.
-/
namespace Bytecode

open Constant

/-- An addition to a constant pool. -/
inductive Addition where
  | utf8 (text : Utf8Text)
  | integer (value : Int32)
  | float (bits : UInt32)
  | long (value : Int64)
  | double (bits : UInt64)
  | classRef (name : Utf8Text)
  | string (text : Utf8Text)
  | nameAndType (name desc : Utf8Text)
  | fieldref (owner name desc : Utf8Text)
  | methodref (owner name desc : Utf8Text)
  | interfaceMethodref (owner name desc : Utf8Text)
  | methodType (desc : Utf8Text)
  | methodHandle (kind reference : Int)
  | invokeDynamic (bootstrap : Int) (name desc : Utf8Text)
  deriving DecidableEq, Repr

namespace Addition

/-- The pool after an addition, and the index that it gives. -/
def apply (p : ConstantPool) : Addition → ConstantPool × Nat
  | .utf8 text => p.addUtf8 text
  | .integer value => p.addInteger value
  | .float bits => p.addFloat bits
  | .long value => p.addLong value
  | .double bits => p.addDouble bits
  | .classRef name => p.addClass name
  | .string text => p.addString text
  | .nameAndType name desc => p.addNameAndType name desc
  | .fieldref owner name desc => p.addFieldref owner name desc
  | .methodref owner name desc => p.addMethodref owner name desc
  | .interfaceMethodref owner name desc => p.addInterfaceMethodref owner name desc
  | .methodType desc => p.addMethodType desc
  | .methodHandle kind reference => p.addMethodHandle kind reference
  | .invokeDynamic bootstrap name desc => p.addInvokeDynamic bootstrap name desc

/-- The kind of the entry that an addition gives the index of. -/
def tag : Addition → Tag
  | .utf8 _ => .utf8
  | .integer _ => .integer
  | .float _ => .float
  | .long _ => .long
  | .double _ => .double
  | .classRef _ => .classRef
  | .string _ => .string
  | .nameAndType _ _ => .nameAndType
  | .fieldref _ _ _ => .fieldref
  | .methodref _ _ _ => .methodref
  | .interfaceMethodref _ _ _ => .interfaceMethodref
  | .methodType _ => .methodType
  | .methodHandle _ _ => .methodHandle
  | .invokeDynamic _ _ _ => .invokeDynamic

/-- Floating-point literals are shared as numbers, and not by their bits. -/
def isFloating : Addition → Bool
  | .float _ | .double _ => true
  | _ => false

/-- The index `i` of the pool `p` gives back what was added. A floating-point literal comes back as
one that is equal to it as a number. -/
def ReadsBack (p : ConstantPool) (i : Nat) : Addition → Prop
  | .utf8 text => p.utf8 i = .ok text
  | .integer value => p.get i = .ok (.integer value)
  | .float bits => ∃ found, p.get i = .ok (.float found) ∧
      (found = bits ∨ FloatFormat.binary32.same bits.toNat found.toNat = true)
  | .long value => p.get i = .ok (.long value)
  | .double bits => ∃ found, p.get i = .ok (.double found) ∧
      (found = bits ∨ FloatFormat.binary64.same bits.toNat found.toNat = true)
  | .classRef name => p.classText i = .ok name
  | .string text => p.stringValue i = .ok text
  | .nameAndType name desc => p.nameAndTypeTexts i = .ok (name, desc)
  | .fieldref owner name desc => p.memberTexts i = .ok ⟨.fieldref, owner, name, desc⟩
  | .methodref owner name desc => p.memberTexts i = .ok ⟨.methodref, owner, name, desc⟩
  | .interfaceMethodref owner name desc =>
    p.memberTexts i = .ok ⟨.interfaceMethodref, owner, name, desc⟩
  | .methodType desc => ∃ d : Nat, p.get i = .ok (.methodType d) ∧ p.utf8 d = .ok desc
  | .methodHandle kind reference => p.get i = .ok (.methodHandle kind reference)
  | .invokeDynamic bootstrap name desc =>
    p.callSiteTexts i = .ok (name, desc) ∧ ∃ n, p.get i = .ok (.invokeDynamic bootstrap n)

end Addition

namespace Constant

/-- Is an entry a floating-point literal? -/
def isFloating : Constant → Bool
  | .float _ | .double _ => true
  | _ => false

/-- The indices that an entry refers to, each with the kind of the entry there. A method handle may
be given any numbers, and the bootstrap method of a call site is not in the pool. -/
def pointers : Constant → List (Nat × Tag)
  | .classRef name => [(name, .utf8)]
  | .string text => [(text, .utf8)]
  | .fieldref owner nat | .methodref owner nat | .interfaceMethodref owner nat =>
    [(owner, .classRef), (nat, .nameAndType)]
  | .nameAndType name desc => [(name, .utf8), (desc, .utf8)]
  | .methodType desc => [(desc, .utf8)]
  | .invokeDynamic _ nat => [(nat, .nameAndType)]
  | _ => []

theorem shares_iff {c e : Constant} (hc : c.isFloating = false) : c.shares e = true ↔ c = e := by
  unfold shares
  split
  · cases hc
  · cases hc
  · exact beq_iff_eq

end Constant

namespace ConstantPool

variable {p q r : ConstantPool} {i j : Nat} {c e : Constant} {a b : Addition}

/-! ### Entries -/

/-- The entry `c` stands at index `i`. -/
def Holds (p : ConstantPool) (i : Nat) (c : Constant) : Prop :=
  p.slots[i]? = some (some c)

/-- All that is in `p` is in `q`, at the same place. -/
def Extends (p q : ConstantPool) : Prop :=
  ∃ more, q.slots = p.slots ++ more

@[refl] theorem Extends.refl (p : ConstantPool) : p.Extends p :=
  ⟨#[], by simp⟩

theorem Extends.trans (hpq : p.Extends q) (hqr : q.Extends r) : p.Extends r := by
  obtain ⟨more, hq⟩ := hpq
  obtain ⟨rest, hr⟩ := hqr
  exact ⟨more ++ rest, by rw [hr, hq, Array.append_assoc]⟩

theorem Extends.slots_eq (h : p.Extends q) (hi : i < p.size) : q.slots[i]? = p.slots[i]? := by
  obtain ⟨more, hq⟩ := h
  rw [hq, Array.getElem?_append_left hi]

theorem Holds.lt (h : p.Holds i c) : i < p.size :=
  (Array.getElem?_eq_some_iff.1 h).1

theorem Holds.extend (h : p.Holds i c) (hpq : p.Extends q) : q.Holds i c :=
  (hpq.slots_eq h.lt).trans h

theorem Holds.unique (hc : p.Holds i c) (he : p.Holds i e) : c = e := by
  simpa [Holds] using hc.symm.trans he

theorem holds_iff : p.Holds i c ↔ p.entry? i = some c := by
  show _ ↔ (p.slots[i]?).join = some c
  rw [Option.join_eq_some_iff]
  rfl

theorem Holds.get (h : p.Holds i c) : p.get i = .ok c := by
  rw [ConstantPool.get, holds_iff.1 h]

theorem Holds.tag? (h : p.Holds i c) : p.tag? i = some c.tag := by
  rw [ConstantPool.tag?, holds_iff.1 h, Option.map_some]

theorem mem_index : (c, i) ∈ p.index ↔ p.Holds i c := by
  rw [p.indexed, places, List.mem_reverse, List.mem_filterMap, Holds, ← Array.getElem?_toList]
  constructor
  · rintro ⟨⟨_ | e, j⟩, hmem, heq⟩
    · cases heq
    · cases heq
      exact List.mem_zipIdx_iff_getElem?.1 hmem
  · exact fun h => ⟨(some c, i), List.mem_zipIdx_iff_getElem?.2 h, rfl⟩

theorem add_cases (p : ConstantPool) (c : Constant) :
    (∃ e, p.Holds (p.add c).2 e ∧ c.shares e = true ∧ (p.add c).1 = p) ∨
      (∀ i e, p.Holds i e → c.shares e = false) ∧ (p.add c).2 = p.size ∧
        (p.add c).1.slots = p.slots ++ if c.isWide then #[some c, none] else #[some c] := by
  unfold add
  split
  · next e i hfound =>
    have hshares := List.find?_some hfound
    exact .inl ⟨e, mem_index.1 (List.mem_of_find?_eq_some hfound), hshares, rfl⟩
  · next hnone =>
    refine .inr ⟨fun i e he => ?_, rfl, ?_⟩
    · simpa using List.find?_eq_none.1 hnone (e, i) (mem_index.2 he)
    · dsimp only [append]
      split
      · rw [← Array.append_singleton, ← Array.append_singleton, Array.append_assoc]
        rfl
      · rw [Array.append_singleton]

theorem extends_add (p : ConstantPool) (c : Constant) : p.Extends (p.add c).1 := by
  rcases add_cases p c with ⟨e, -, -, hsame⟩ | ⟨-, -, hslots⟩
  · rw [hsame]
  · exact ⟨_, hslots⟩

theorem holds_add (p : ConstantPool) (c : Constant) :
    ∃ e, (p.add c).1.Holds (p.add c).2 e ∧ (e = c ∨ c.shares e = true) := by
  rcases add_cases p c with ⟨e, he, hshares, hsame⟩ | ⟨-, hindex, hslots⟩
  · exact ⟨e, hsame.symm ▸ he, .inr hshares⟩
  · refine ⟨c, ?_, .inl rfl⟩
    rw [Holds, hindex, hslots, size, Array.getElem?_append_right (Nat.le_refl _)]
    split <;> simp

theorem holds_add_self (hc : c.isFloating = false) : (p.add c).1.Holds (p.add c).2 c := by
  obtain ⟨e, he, heq | hshares⟩ := holds_add p c
  · exact heq ▸ he
  · rw [shares_iff hc] at hshares
    exact hshares ▸ he

/-! ### Pools that are made by additions -/

/-- Nothing stands at index 0 and after a long or double, no entry is there twice unless it is a
floating-point literal, and entries refer to earlier ones of the right kind. -/
structure Sound (p : ConstantPool) : Prop where
  zero : p.slots[0]? = some none
  shadow : ∀ i c, p.Holds i c → c.isWide = true → p.slots[i + 1]? = some none
  distinct : ∀ i j c, p.Holds i c → p.Holds j c → c.isFloating = false → i = j
  pointers : ∀ i c, p.Holds i c → ∀ r ∈ c.pointers, r.1 < i ∧ ∃ e, p.Holds r.1 e ∧ e.tag = r.2

theorem sound_empty : empty.Sound := by
  have hnone : ∀ i c, ¬empty.Holds i c := by
    intro i c h
    have hi : i = 0 := by simpa [size, empty] using h.lt
    subst hi
    cases h
  exact ⟨rfl, fun i c h => absurd h (hnone i c), fun i _ c h => absurd h (hnone i c),
    fun i c h => absurd h (hnone i c)⟩

theorem Sound.pos (hp : p.Sound) : 0 < p.size :=
  (Array.getElem?_eq_some_iff.1 hp.zero).1

theorem Sound.usable (hp : p.Sound) (h : p.Holds i c) :
    0 < i ∧ ∀ e, p.Holds (i - 1) e → e.isWide = false := by
  have hpos : 0 < i := by
    rcases Nat.eq_zero_or_pos i with rfl | hpos
    · cases hp.zero.symm.trans h
    · exact hpos
  refine ⟨hpos, fun e he => ?_⟩
  cases hwide : e.isWide with
  | false => rfl
  | true =>
    have hnone := hp.shadow _ e he hwide
    rw [Nat.sub_add_cancel hpos] at hnone
    cases hnone.symm.trans h

/-- An addition of one entry keeps a pool sound if what the entry refers to is there. -/
theorem Sound.add (hp : p.Sound)
    (hc : ∀ r ∈ c.pointers, ∃ e, p.Holds r.1 e ∧ e.tag = r.2) : (p.add c).1.Sound := by
  have hext := extends_add p c
  rcases add_cases p c with ⟨-, -, -, hsame⟩ | ⟨hnew, -, hslots⟩
  · rwa [hsame]
  have hcases : ∀ {i e}, (p.add c).1.Holds i e → p.Holds i e ∨ i = p.size ∧ e = c := by
    intro i e he
    rw [Holds, hslots, Array.getElem?_append] at he
    split at he
    · exact .inl he
    · next hi =>
      obtain ⟨k, rfl⟩ := Nat.exists_eq_add_of_le (Nat.le_of_not_lt hi)
      rw [Nat.add_sub_cancel_left] at he
      rcases k with _ | _ | k <;> split at he <;> simp_all [size]
  refine ⟨(hext.slots_eq hp.pos).trans hp.zero, fun i e he hwide => ?_, fun i j e hi hj he => ?_,
    fun i e he r hr => ?_⟩
  · rcases hcases he with he | ⟨rfl, rfl⟩
    · have hnone := hp.shadow i e he hwide
      exact (hext.slots_eq (Array.getElem?_eq_some_iff.1 hnone).1).trans hnone
    · rw [hslots, size, if_pos hwide, Array.getElem?_append_right (by omega)]
      simp
  · have hfresh : ∀ {i}, p.Holds i c → c.isFloating = false → False := by
      intro i hi hexact
      cases (hnew i c hi).symm.trans ((shares_iff hexact).2 rfl)
    rcases hcases hi with hold | ⟨rfl, rfl⟩
    · rcases hcases hj with hold' | ⟨-, rfl⟩
      · exact hp.distinct i j e hold hold' he
      · exact (hfresh hold he).elim
    · rcases hcases hj with hold' | ⟨rfl, -⟩
      · exact (hfresh hold' he).elim
      · rfl
  · rcases hcases he with he | ⟨rfl, rfl⟩
    · obtain ⟨hlt, e', he', htag⟩ := hp.pointers i e he r hr
      exact ⟨hlt, e', he'.extend hext, htag⟩
    · obtain ⟨e', he', htag⟩ := hc r hr
      exact ⟨he'.lt, e', he'.extend hext, htag⟩

/-! ### What an entry stands for -/

/-- The entry `c` of the pool `p`, with all that it refers to, stands for an addition. -/
inductive Denotes (p : ConstantPool) : Constant → Addition → Prop
  | utf8 {text : Utf8Text} : Denotes p (.utf8 text) (.utf8 text)
  | integer {value : Int32} : Denotes p (.integer value) (.integer value)
  | float {found bits : UInt32}
      (equal : found = bits ∨ FloatFormat.binary32.same bits.toNat found.toNat = true) :
      Denotes p (.float found) (.float bits)
  | long {value : Int64} : Denotes p (.long value) (.long value)
  | double {found bits : UInt64}
      (equal : found = bits ∨ FloatFormat.binary64.same bits.toNat found.toNat = true) :
      Denotes p (.double found) (.double bits)
  | classRef {n : Nat} {c : Constant} {name : Utf8Text} (holds : p.Holds n c)
      (denotes : Denotes p c (.utf8 name)) : Denotes p (.classRef n) (.classRef name)
  | string {n : Nat} {c : Constant} {text : Utf8Text} (holds : p.Holds n c)
      (denotes : Denotes p c (.utf8 text)) : Denotes p (.string n) (.string text)
  | nameAndType {n d : Nat} {c e : Constant} {name desc : Utf8Text} (holds : p.Holds n c)
      (denotes : Denotes p c (.utf8 name)) (holds' : p.Holds d e)
      (denotes' : Denotes p e (.utf8 desc)) : Denotes p (.nameAndType n d) (.nameAndType name desc)
  | fieldref {o n : Nat} {c e : Constant} {owner name desc : Utf8Text} (holds : p.Holds o c)
      (denotes : Denotes p c (.classRef owner)) (holds' : p.Holds n e)
      (denotes' : Denotes p e (.nameAndType name desc)) :
      Denotes p (.fieldref o n) (.fieldref owner name desc)
  | methodref {o n : Nat} {c e : Constant} {owner name desc : Utf8Text} (holds : p.Holds o c)
      (denotes : Denotes p c (.classRef owner)) (holds' : p.Holds n e)
      (denotes' : Denotes p e (.nameAndType name desc)) :
      Denotes p (.methodref o n) (.methodref owner name desc)
  | interfaceMethodref {o n : Nat} {c e : Constant} {owner name desc : Utf8Text} (holds : p.Holds o c)
      (denotes : Denotes p c (.classRef owner)) (holds' : p.Holds n e)
      (denotes' : Denotes p e (.nameAndType name desc)) :
      Denotes p (.interfaceMethodref o n) (.interfaceMethodref owner name desc)
  | methodType {d : Nat} {c : Constant} {desc : Utf8Text} (holds : p.Holds d c)
      (denotes : Denotes p c (.utf8 desc)) : Denotes p (.methodType d) (.methodType desc)
  | methodHandle {kind reference : Int} :
      Denotes p (.methodHandle kind reference) (.methodHandle kind reference)
  | invokeDynamic {bootstrap : Int} {n : Nat} {c : Constant} {name desc : Utf8Text}
      (holds : p.Holds n c) (denotes : Denotes p c (.nameAndType name desc)) :
      Denotes p (.invokeDynamic bootstrap n) (.invokeDynamic bootstrap name desc)

namespace Denotes

theorem extend (h : p.Denotes c a) (hpq : p.Extends q) : q.Denotes c a := by
  induction h with
  | utf8 => exact .utf8
  | integer => exact .integer
  | float equal => exact .float equal
  | long => exact .long
  | double equal => exact .double equal
  | classRef holds _ ih => exact .classRef (holds.extend hpq) ih
  | string holds _ ih => exact .string (holds.extend hpq) ih
  | nameAndType holds _ holds' _ ih ih' =>
    exact .nameAndType (holds.extend hpq) ih (holds'.extend hpq) ih'
  | fieldref holds _ holds' _ ih ih' =>
    exact .fieldref (holds.extend hpq) ih (holds'.extend hpq) ih'
  | methodref holds _ holds' _ ih ih' =>
    exact .methodref (holds.extend hpq) ih (holds'.extend hpq) ih'
  | interfaceMethodref holds _ holds' _ ih ih' =>
    exact .interfaceMethodref (holds.extend hpq) ih (holds'.extend hpq) ih'
  | methodType holds _ ih => exact .methodType (holds.extend hpq) ih
  | methodHandle => exact .methodHandle
  | invokeDynamic holds _ ih => exact .invokeDynamic (holds.extend hpq) ih

theorem unique (ha : p.Denotes c a) (hb : p.Denotes c b) (hexact : a.isFloating = false) :
    a = b := by
  induction ha generalizing b with
  | utf8 | integer | long | methodHandle =>
    cases hb
    rfl
  | float | double => cases hexact
  -- Both refer to the same indices, and so to the same entries.
  | classRef holds _ ih | string holds _ ih | methodType holds _ ih | invokeDynamic holds _ ih =>
    cases hb
    grind [Holds.unique, Addition.isFloating]
  | nameAndType holds _ holds' _ ih ih' | fieldref holds _ holds' _ ih ih'
  | methodref holds _ holds' _ ih ih' | interfaceMethodref holds _ holds' _ ih ih' =>
    cases hb
    grind [Holds.unique, Addition.isFloating]

theorem isFloating (h : p.Denotes c a) : c.isFloating = a.isFloating := by
  cases h <;> rfl

theorem inj (hp : p.Sound) (hc : p.Denotes c a) (he : p.Denotes e a)
    (hexact : a.isFloating = false) : c = e := by
  induction hc generalizing e with
  | utf8 | integer | long | methodHandle =>
    cases he
    rfl
  | float | double => cases hexact
  -- Both refer to the same entries, and so by the same indices, since no entry is there twice.
  | classRef holds denotes ih | string holds denotes ih | methodType holds denotes ih
  | invokeDynamic holds denotes ih =>
    cases he
    grind [hp.distinct, isFloating, Addition.isFloating]
  | nameAndType holds denotes holds' denotes' ih ih' | fieldref holds denotes holds' denotes' ih ih'
  | methodref holds denotes holds' denotes' ih ih'
  | interfaceMethodref holds denotes holds' denotes' ih ih' =>
    cases he
    grind [hp.distinct, isFloating, Addition.isFloating]

theorem pointers (h : p.Denotes c a) : ∀ r ∈ c.pointers, ∃ e, p.Holds r.1 e ∧ e.tag = r.2 := by
  have htag : ∀ {c a}, p.Denotes c a → c.tag = a.tag := by
    intro c a h
    cases h <;> rfl
  cases h with
  | utf8 | integer | float | long | double | methodHandle => simp [pointers]
  | classRef holds denotes | string holds denotes | methodType holds denotes
  | invokeDynamic holds denotes =>
    simpa [pointers] using ⟨_, holds, htag denotes⟩
  | nameAndType holds denotes holds' denotes' | fieldref holds denotes holds' denotes'
  | methodref holds denotes holds' denotes' | interfaceMethodref holds denotes holds' denotes' =>
    simpa [pointers] using ⟨⟨_, holds, htag denotes⟩, _, holds', htag denotes'⟩

end Denotes

/-! ### Reading -/

theorem Holds.utf8 {text : Utf8Text} (h : p.Holds i (.utf8 text)) : p.utf8 i = .ok text := by
  simp [ConstantPool.utf8, h.get, wrongKind]

theorem Denotes.utf8_eq {text : Utf8Text} (h : p.Denotes c (.utf8 text)) (hi : p.Holds i c) :
    p.utf8 i = .ok text := by
  cases h
  exact hi.utf8

theorem Denotes.classText {name : Utf8Text} (h : p.Denotes c (.classRef name))
    (hi : p.Holds i c) : p.classText i = .ok name := by
  cases h with
  | classRef holds denotes => simp [ConstantPool.classText, hi.get, denotes.utf8_eq holds]

theorem Denotes.nameAndTypeTexts {name desc : Utf8Text}
    (h : p.Denotes c (.nameAndType name desc)) (hi : p.Holds i c) :
    p.nameAndTypeTexts i = .ok (name, desc) := by
  cases h with
  | nameAndType holds denotes holds' denotes' =>
    simp [-bind_pure_comp, ConstantPool.nameAndTypeTexts, hi.get, denotes.utf8_eq holds,
      denotes'.utf8_eq holds']

/-- The index of an entry gives back what the entry stands for. -/
theorem Denotes.readsBack (h : p.Denotes c a) (hi : p.Holds i c) : a.ReadsBack p i := by
  cases h with
  | utf8 => exact hi.utf8
  | integer => exact hi.get
  | float equal => exact ⟨_, hi.get, equal⟩
  | long => exact hi.get
  | double equal => exact ⟨_, hi.get, equal⟩
  | classRef holds denotes => exact classText (.classRef holds denotes) hi
  | string holds denotes => simp [Addition.ReadsBack, stringValue, hi.get, denotes.utf8_eq holds]
  | nameAndType holds denotes holds' denotes' =>
    exact nameAndTypeTexts (.nameAndType holds denotes holds' denotes') hi
  | fieldref holds denotes holds' denotes' | methodref holds denotes holds' denotes'
  | interfaceMethodref holds denotes holds' denotes' =>
    simp [-bind_pure_comp, Addition.ReadsBack, memberTexts, hi.get, denotes.classText holds,
      denotes'.nameAndTypeTexts holds']
  | methodType holds denotes => exact ⟨_, hi.get, denotes.utf8_eq holds⟩
  | methodHandle => exact hi.get
  | invokeDynamic holds denotes =>
    refine ⟨?_, _, hi.get⟩
    simp [callSiteTexts, hi.get, denotes.nameAndTypeTexts holds]

/-! ### Additions -/

/-- The outcome `r` of the addition `a` to the pool `p`. -/
structure Adds (p : ConstantPool) (a : Addition) (r : ConstantPool × Nat) : Prop where
  sound : r.1.Sound
  grows : p.Extends r.1
  denotes : ∃ c, r.1.Holds r.2 c ∧ r.1.Denotes c a

theorem Adds.after {r : ConstantPool × Nat} (h : q.Adds a r) (hpq : p.Extends q) : p.Adds a r :=
  { h with grows := hpq.trans h.grows }

/-- An entry can be added when it stands for an addition already, by what it refers to. -/
theorem adds_add (hp : p.Sound) (h : p.Denotes c a) (hexact : a.isFloating = false) :
    p.Adds a (p.add c) where
  sound := hp.add h.pointers
  grows := extends_add p c
  denotes := ⟨c, holds_add_self (h.isFloating.trans hexact), h.extend (extends_add p c)⟩

/-- A floating-point literal shares an entry that is equal to it as a number. -/
theorem adds_of_floating (hp : p.Sound) (hc : c.isFloating = true)
    (hdenotes : ∀ e, e = c ∨ c.shares e = true → (p.add c).1.Denotes e a) : p.Adds a (p.add c) where
  sound := hp.add (by cases c <;> simp_all [pointers, isFloating])
  grows := extends_add p c
  denotes := by
    obtain ⟨e, he, hshares⟩ := holds_add p c
    exact ⟨e, he, hdenotes e hshares⟩

theorem adds_utf8 (hp : p.Sound) (text : Utf8Text) : p.Adds (.utf8 text) (p.addUtf8 text) :=
  adds_add hp .utf8 rfl

theorem adds_classRef (hp : p.Sound) (name : Utf8Text) :
    p.Adds (.classRef name) (p.addClass name) := by
  obtain ⟨hsound, hgrows, c, hc, hdenotes⟩ := adds_utf8 hp name
  exact (adds_add hsound (.classRef hc hdenotes) rfl).after hgrows

theorem adds_nameAndType (hp : p.Sound) (name desc : Utf8Text) :
    p.Adds (.nameAndType name desc) (p.addNameAndType name desc) := by
  obtain ⟨hsound, hgrows, c, hc, hdenotes⟩ := adds_utf8 hp name
  obtain ⟨hsound', hgrows', e, he, hdenotes'⟩ := adds_utf8 hsound desc
  exact (adds_add hsound' (.nameAndType (hc.extend hgrows') (hdenotes.extend hgrows') he hdenotes')
    rfl).after (hgrows.trans hgrows')

theorem adds_member (hp : p.Sound) {make : Nat → Nat → Constant} {owner name desc : Utf8Text}
    (hexact : a.isFloating = false)
    (hmake : ∀ {q o n c e}, Holds q o c → q.Denotes c (.classRef owner) → q.Holds n e →
      q.Denotes e (.nameAndType name desc) → q.Denotes (make o n) a) :
    p.Adds a (addMember make p owner name desc) := by
  obtain ⟨hsound, hgrows, c, hc, hdenotes⟩ := adds_classRef hp owner
  obtain ⟨hsound', hgrows', e, he, hdenotes'⟩ := adds_nameAndType hsound name desc
  exact (adds_add hsound' (hmake (hc.extend hgrows') (hdenotes.extend hgrows') he hdenotes')
    hexact).after (hgrows.trans hgrows')

/-- Every addition keeps what is there, and gives an index for what it adds. -/
theorem adds_apply (hp : p.Sound) (a : Addition) : p.Adds a (a.apply p) := by
  cases a with
  | utf8 text => exact adds_utf8 hp text
  | integer value => exact adds_add hp .integer rfl
  | float bits =>
    refine adds_of_floating hp rfl fun e he => ?_
    cases e <;> simp [shares] at he
    exact .float he
  | long value => exact adds_add hp .long rfl
  | double bits =>
    refine adds_of_floating hp rfl fun e he => ?_
    cases e <;> simp [shares] at he
    exact .double he
  | classRef name => exact adds_classRef hp name
  | string text =>
    obtain ⟨hsound, hgrows, c, hc, hdenotes⟩ := adds_utf8 hp text
    exact (adds_add hsound (.string hc hdenotes) rfl).after hgrows
  | nameAndType name desc => exact adds_nameAndType hp name desc
  | fieldref owner name desc => exact adds_member hp rfl .fieldref
  | methodref owner name desc => exact adds_member hp rfl .methodref
  | interfaceMethodref owner name desc => exact adds_member hp rfl .interfaceMethodref
  | methodType desc =>
    obtain ⟨hsound, hgrows, c, hc, hdenotes⟩ := adds_utf8 hp desc
    exact (adds_add hsound (.methodType hc hdenotes) rfl).after hgrows
  | methodHandle kind reference => exact adds_add hp .methodHandle rfl
  | invokeDynamic bootstrap name desc =>
    obtain ⟨hsound, hgrows, c, hc, hdenotes⟩ := adds_nameAndType hp name desc
    exact Adds.after (adds_add hsound (.invokeDynamic hc hdenotes) rfl) hgrows

/-! ### One addition after another -/

/-- The pool after some additions. -/
def addAll (p : ConstantPool) (additions : List Addition) : ConstantPool :=
  additions.foldl (fun p a => (a.apply p).1) p

/-- The pool after some additions to a new one. -/
def built (additions : List Addition) : ConstantPool :=
  empty.addAll additions

/-- The index that an addition gives after others. -/
def indexAfter (before : List Addition) (a : Addition) : Nat :=
  (a.apply (built before)).2

theorem Sound.addAll (hp : p.Sound) (additions : List Addition) :
    (p.addAll additions).Sound ∧ p.Extends (p.addAll additions) := by
  induction additions generalizing p with
  | nil => exact ⟨hp, .refl p⟩
  | cons a additions ih =>
    have hadds := adds_apply hp a
    obtain ⟨hsound, hgrows⟩ := ih hadds.sound
    exact ⟨hsound, hadds.grows.trans hgrows⟩

theorem sound_built (additions : List Addition) : (built additions).Sound :=
  (sound_empty.addAll additions).1

theorem built_append (before after : List Addition) :
    built (before ++ after) = (built before).addAll after :=
  List.foldl_append

theorem extends_built (before after : List Addition) :
    (built before).Extends (built (before ++ after)) := by
  rw [built_append]
  exact ((sound_built before).addAll after).2

/-- The index of an addition stands for it at every later time. -/
theorem denotes_built (before after : List Addition) (a : Addition) :
    ∃ c, (built (before ++ a :: after)).Holds (indexAfter before a) c ∧
      (built (before ++ a :: after)).Denotes c a := by
  obtain ⟨hsound, -, c, hc, hdenotes⟩ := adds_apply (sound_built before) a
  obtain ⟨-, hgrows⟩ := hsound.addAll after
  rw [built_append]
  exact ⟨c, hc.extend hgrows, hdenotes.extend hgrows⟩

end ConstantPool

open ConstantPool

/-- For every sequence of additions to a new pool, entries stay where they are; an index that was
given is neither 0 nor the one after a long or double, and reads back as what it was given for at
every later time; two additions give the same index exactly if they are the same; and entries refer
to earlier ones of the right kind. Floating-point literals are shared as numbers, so they come back
as numbers, and their indices do not tell them apart. -/
theorem additions_readBack (before after : List Addition) (a : Addition) :
    (∀ i < (built before).size,
      (built (before ++ a :: after)).slots[i]? = (built before).slots[i]?) ∧
    (0 < indexAfter before a ∧ indexAfter before a < (built (before ++ a :: after)).size ∧
      ∀ c, entry? (built (before ++ a :: after)) (indexAfter before a - 1 : Nat) = some c →
        c.isWide = false) ∧
    a.ReadsBack (built (before ++ a :: after)) (indexAfter before a) ∧
    (∀ b, a.isFloating = false → b.isFloating = false →
      (indexAfter before a = indexAfter (before ++ a :: after) b ↔ a = b)) ∧
    ∀ (i : Nat) c, entry? (built (before ++ a :: after)) i = some c → ∀ r ∈ c.pointers,
      r.1 < i ∧ (built (before ++ a :: after)).tag? r.1 = some r.2 := by
  have hsound := sound_built (before ++ a :: after)
  obtain ⟨c, hc, hdenotes⟩ := denotes_built before after a
  obtain ⟨hpos, hshadow⟩ := hsound.usable hc
  refine ⟨fun i => (extends_built before (a :: after)).slots_eq,
    ⟨hpos, hc.lt, fun e he => hshadow e (holds_iff.2 he)⟩, hdenotes.readsBack hc,
    fun b ha hb => ?_, fun i e he r hr => ?_⟩
  · -- Just after the second addition, both indices stand for what they were given for.
    obtain ⟨e, he, hdenotes'⟩ := denotes_built (before ++ a :: after) [] b
    have hgrows := extends_built (before ++ a :: after) [b]
    constructor
    · intro heq
      rw [← heq] at he
      cases he.unique (hc.extend hgrows)
      exact (hdenotes.extend hgrows).unique hdenotes' ha
    · rintro rfl
      cases (hdenotes.extend hgrows).inj (sound_built _) hdenotes' ha
      exact (sound_built _).distinct _ _ c (hc.extend hgrows) he (hdenotes.isFloating.trans ha)
  · obtain ⟨hlt, e', he', htag⟩ := hsound.pointers i e (holds_iff.2 he) r hr
    exact ⟨hlt, htag ▸ he'.tag?⟩

/-- After a long and a zero, a method whose class and name come later once more; the other zero
shares the entry of the first. -/
theorem additions_readBack_method :
    indexAfter [.long 7, .float 0] (.methodref "app/Dog" "bark" "()V") = 9 ∧
    (built [.long 7, .float 0, .methodref "app/Dog" "bark" "()V", .float 0x80000000,
      .string "bark"]).size = 11 ∧
    (built [.long 7, .float 0, .methodref "app/Dog" "bark" "()V", .float 0x80000000,
      .string "bark"]).memberTexts 9 = .ok ⟨.methodref, "app/Dog", "bark", "()V"⟩ ∧
    indexAfter [.long 7, .float 0, .methodref "app/Dog" "bark" "()V", .float 0x80000000,
      .string "bark"] (.methodref "app/Dog" "bark" "()V") = 9 := by
  have hindex : indexAfter [.long 7, .float 0] (.methodref "app/Dog" "bark" "()V") = 9 := by
    decide +kernel
  obtain ⟨-, -, hreads, hsame, -⟩ := additions_readBack [.long 7, .float 0]
    [.float 0x80000000, .string "bark"] (.methodref "app/Dog" "bark" "()V")
  rw [hindex] at hreads hsame
  exact ⟨hindex, by decide +kernel, hreads, ((hsame _ rfl rfl).2 rfl).symm⟩

end Bytecode
