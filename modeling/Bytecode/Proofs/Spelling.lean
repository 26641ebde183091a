import Bytecode.Proofs.Records

/-!
Texts and their bytes.

Bytes are read as characters: one for each byte, or those that the bytes encode in UTF-8. In both
readings an ASCII character is one byte, and a byte below 128 is nothing but that character, so a
rule that looks for ASCII characters only says the same of the bytes and of the characters.

Main statements: `spells_byteText` and `spells_toUTF8`, the two readings are spelled by the bytes.
-/
namespace Bytecode

open List

/-- An ASCII character is one byte, and no byte of another character is below 128. -/
inductive Spells : List Char → List UInt8 → Prop
  | nil : Spells [] []
  | ascii {c : Char} {cs : List Char} {d : List UInt8} :
      c.toNat < 128 → Spells cs d → Spells (c :: cs) (c.toUInt8 :: d)
  | other {c : Char} {cs : List Char} {bytes d : List UInt8} :
      128 ≤ c.toNat → bytes ≠ [] → (∀ b ∈ bytes, 128 ≤ b.toNat) →
        Spells cs d → Spells (c :: cs) (bytes ++ d)

theorem toNat_toUInt8 {c : Char} (hc : c.toNat < 128) : c.toUInt8.toNat = c.toNat := by
  show c.toNat % 256 = c.toNat
  omega

namespace Spells

variable {c : Char} {cs cs' : List Char} {d d' : List UInt8}

theorem nil_left (h : Spells [] d) : d = [] := by
  cases h
  rfl

theorem nil_right (h : Spells cs []) : cs = [] := by
  generalize hd : ([] : List UInt8) = d at h
  cases h with
  | nil => rfl
  | ascii => cases hd
  | other _ hne _ _ => exact absurd (append_eq_nil_iff.1 hd.symm).1 hne

theorem append (h : Spells cs d) (h' : Spells cs' d') : Spells (cs ++ cs') (d ++ d') := by
  induction h with
  | nil => exact h'
  | ascii hc _ ih => exact .ascii hc ih
  | other hc hne hbytes _ ih =>
    rw [append_assoc]
    exact .other hc hne hbytes ih

theorem of_append (h : Spells (cs ++ cs') d) :
    ∃ d₁ d₂, d = d₁ ++ d₂ ∧ Spells cs d₁ ∧ Spells cs' d₂ := by
  induction cs generalizing d with
  | nil => exact ⟨[], d, rfl, .nil, h⟩
  | cons c cs ih =>
    cases h with
    | ascii hc h =>
      obtain ⟨d₁, d₂, rfl, h₁, h₂⟩ := ih h
      exact ⟨c.toUInt8 :: d₁, d₂, rfl, .ascii hc h₁, h₂⟩
    | @other _ _ bytes _ hc hne hbytes h =>
      obtain ⟨d₁, d₂, rfl, h₁, h₂⟩ := ih h
      exact ⟨bytes ++ d₁, d₂, (append_assoc ..).symm, .other hc hne hbytes h₁, h₂⟩

theorem of_cons (hc : c.toNat < 128) (h : Spells (c :: cs) d) :
    ∃ d', d = c.toUInt8 :: d' ∧ Spells cs d' := by
  cases h with
  | @ascii _ _ d' _ h => exact ⟨d', rfl, h⟩
  | other hc' _ _ _ => omega

/-- An ASCII byte is a character of its own: no character reaches over it. -/
theorem cut (hc : c.toNat < 128) (h : Spells cs (d ++ c.toUInt8 :: d')) :
    ∃ cs₁ cs₂, cs = cs₁ ++ c :: cs₂ ∧ Spells cs₁ d ∧ Spells cs₂ d' := by
  generalize hw : d ++ c.toUInt8 :: d' = w at h
  induction h generalizing d with
  | nil => simp at hw
  | @ascii first cs w hfirst h ih =>
    cases d with
    | nil =>
      simp only [nil_append, List.cons.injEq] at hw
      obtain ⟨hbyte, rfl⟩ := hw
      have hsame : c.toNat = first.toNat := by
        rw [← toNat_toUInt8 hc, ← toNat_toUInt8 hfirst, hbyte]
      exact ⟨[], cs, by rw [Char.toNat_inj.1 hsame]; rfl, .nil, h⟩
    | cons b d =>
      simp only [cons_append, List.cons.injEq] at hw
      obtain ⟨rfl, hw⟩ := hw
      obtain ⟨cs₁, cs₂, rfl, h₁, h₂⟩ := ih hw
      exact ⟨first :: cs₁, cs₂, rfl, .ascii hfirst h₁, h₂⟩
  | @other first cs bytes w hfirst hne hbytes h ih =>
    -- The byte is not one of the first character, so it comes after all of them.
    have hafter : ∃ d₀, d = bytes ++ d₀ ∧ d₀ ++ c.toUInt8 :: d' = w := by
      rcases append_eq_append_iff.1 hw with ⟨excess, hbytes', hexcess⟩ | ⟨d₀, rfl, hd₀⟩
      · cases excess with
        | nil => exact ⟨[], by simpa using hbytes'.symm, by simpa using hexcess⟩
        | cons b excess =>
          simp only [cons_append, List.cons.injEq] at hexcess
          have hb := hbytes c.toUInt8 (by simp [hbytes', hexcess.1])
          rw [toNat_toUInt8 hc] at hb
          omega
      · exact ⟨d₀, rfl, hd₀.symm⟩
    obtain ⟨d₀, rfl, hd₀⟩ := hafter
    obtain ⟨cs₁, cs₂, rfl, h₁, h₂⟩ := ih hd₀
    exact ⟨first :: cs₁, cs₂, rfl, .other hfirst hne hbytes h₁, h₂⟩

theorem cons_right (hc : c.toNat < 128) (h : Spells cs (c.toUInt8 :: d)) :
    ∃ cs', cs = c :: cs' ∧ Spells cs' d := by
  obtain ⟨cs₁, cs₂, rfl, h₁, h₂⟩ := cut (d := []) hc h
  rw [h₁.nil_right]
  exact ⟨cs₂, rfl, h₂⟩

theorem mem_iff (hc : c.toNat < 128) (h : Spells cs d) : c ∈ cs ↔ c.toUInt8 ∈ d := by
  constructor
  · intro hmem
    obtain ⟨cs₁, cs₂, rfl⟩ := append_of_mem hmem
    obtain ⟨d₁, d₂, rfl, -, h₂⟩ := h.of_append
    obtain ⟨d₃, rfl, -⟩ := of_cons hc h₂
    simp
  · intro hmem
    obtain ⟨d₁, d₂, rfl⟩ := append_of_mem hmem
    obtain ⟨cs₁, cs₂, rfl, -, -⟩ := cut hc h
    simp

theorem eq_nil_iff (h : Spells cs d) : cs = [] ↔ d = [] := by
  constructor
  · rintro rfl
    exact h.nil_left
  · rintro rfl
    exact h.nil_right

theorem eq_singleton_iff (hc : c.toNat < 128) (h : Spells cs d) : cs = [c] ↔ d = [c.toUInt8] := by
  constructor
  · rintro rfl
    obtain ⟨d', rfl, h'⟩ := of_cons hc h
    rw [h'.nil_left]
  · rintro rfl
    obtain ⟨cs', rfl, h'⟩ := cons_right hc h
    rw [h'.nil_right]

end Spells

/-! ### The two readings -/

theorem le_of_mem_utf8EncodeChar {c : Char} (hc : 128 ≤ c.toNat) :
    String.utf8EncodeChar c ≠ [] ∧ ∀ b ∈ String.utf8EncodeChar c, 128 ≤ b.toNat := by
  have hc' : ¬ c.val.toNat ≤ 0x7f := by
    show ¬ c.toNat ≤ 0x7f
    omega
  -- A first byte starts at 0xc0, 0xe0 or 0xf0, and those after it start at 0x80.
  simp only [String.utf8EncodeChar, if_neg hc']
  split
  · refine ⟨by simp, ?_⟩
    simp only [mem_cons, not_mem_nil, or_false, forall_eq_or_imp, forall_eq, UInt8.toNat_ofNat']
    omega
  · split <;>
      refine ⟨by simp, ?_⟩ <;>
      simp only [mem_cons, not_mem_nil, or_false, forall_eq_or_imp, forall_eq,
        UInt8.toNat_ofNat'] <;>
      omega

theorem utf8EncodeChar_ascii {c : Char} (hc : c.toNat < 128) :
    String.utf8EncodeChar c = [c.toUInt8] := by
  have hle : c.val.toNat ≤ 0x7f := by
    show c.toNat ≤ 0x7f
    omega
  simp only [String.utf8EncodeChar, if_pos hle]
  rfl

theorem spells_utf8EncodeChar (cs : List Char) : Spells cs (cs.flatMap String.utf8EncodeChar) := by
  induction cs with
  | nil => exact .nil
  | cons c cs ih =>
    rw [flatMap_cons]
    by_cases hc : c.toNat < 128
    · rw [utf8EncodeChar_ascii hc]
      exact .ascii hc ih
    · obtain ⟨hne, hbytes⟩ := le_of_mem_utf8EncodeChar (Nat.not_lt.1 hc)
      exact .other (Nat.not_lt.1 hc) hne hbytes ih

theorem toUTF8_toList (s : String) : s.toUTF8.toList = s.toList.flatMap String.utf8EncodeChar := by
  unfold ByteArray.toList
  rw [toList_loop]
  show s.toByteArray.data.toList = _
  rw [← String.utf8Encode_toList]
  simp [List.utf8Encode]

theorem spells_toUTF8 (s : String) : Spells s.toList s.toUTF8.toList := by
  rw [toUTF8_toList]
  exact spells_utf8EncodeChar _

theorem toUInt8_ofUInt8 (b : UInt8) : (Char.ofUInt8 b).toUInt8 = b :=
  UInt8.toNat_inj.1 (Nat.mod_eq_of_lt b.toNat_lt)

theorem ofUInt8_toUInt8 {c : Char} (hc : c.toNat < 256) : Char.ofUInt8 c.toUInt8 = c :=
  Char.toNat_inj.1 (Nat.mod_eq_of_lt hc)

theorem spells_byteText (d : List UInt8) : Spells (byteText d).toList d := by
  rw [byteText, String.toList_ofList]
  induction d with
  | nil => exact .nil
  | cons b d ih =>
    have hnat : (Char.ofUInt8 b).toNat = b.toNat := rfl
    rw [map_cons]
    by_cases hb : b.toNat < 128
    · have h := Spells.ascii (hnat ▸ hb) ih
      rwa [toUInt8_ofUInt8] at h
    · show Spells (Char.ofUInt8 b :: d.map Char.ofUInt8) ([b] ++ d)
      exact .other (by omega) (by simp) (by simpa using hb) ih

/-- The bytes of a string with one character for each. -/
def charBytes (s : String) : List UInt8 :=
  s.toList.map Char.toUInt8

theorem charBytes_byteText (d : List UInt8) : charBytes (byteText d) = d := by
  simp [charBytes, byteText, Function.comp_def, toUInt8_ofUInt8]

/-! ### Encoded strings -/

/-- A string with one character for each byte of another one. -/
def encodedText (s : String) : String :=
  byteText s.toUTF8.toList

theorem toList_encodedText (s : String) : (encodedText s).toList =
    s.toList.flatMap fun c => (String.utf8EncodeChar c).map Char.ofUInt8 := by
  rw [encodedText, byteText, String.toList_ofList, toUTF8_toList, map_flatMap]

theorem encodedText_append (s t : String) :
    encodedText (s ++ t) = encodedText s ++ encodedText t := by
  refine String.toList_inj.1 ?_
  simp only [toList_encodedText, String.toList_append, flatMap_append]

theorem encodedText_join (l : List String) :
    encodedText (String.join l) = String.join (l.map encodedText) := by
  refine String.toList_inj.1 ?_
  simp only [toList_encodedText, String.toList_join, flatMap_map, flatMap_assoc]

theorem encodedText_ascii {s : String} (h : ∀ c ∈ s.toList, c.toNat < 128) : encodedText s = s := by
  refine String.toList_inj.1 ?_
  have hsame : ∀ c ∈ s.toList, (String.utf8EncodeChar c).map Char.ofUInt8 = [c] := by
    intro c hc
    have hlt := h c hc
    rw [utf8EncodeChar_ascii hlt, map_singleton, ofUInt8_toUInt8 (by omega)]
  rw [toList_encodedText, flatMap_congr hsame]
  simp

end Bytecode
