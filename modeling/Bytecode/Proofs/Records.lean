import Bytecode.Fingerprint
import Bytecode.Proofs.ClassOutlines

/-!
The records that fingerprints are made from can be read back: where lengths fit in four bytes and
integers in eight, two records are the same bytes only if they were made from the same data.

Main statements: `methodRecord_inj`, `hierarchyRecord_inj` and `keyRecord_inj` for the three kinds
of records, and `text_inj` for the hexadecimal form of a digest.
-/
namespace Bytecode

open Constant List

/-! ### Bytes -/

theorem bigEndian_inj {width n k : Nat} (h : bigEndian width n = bigEndian width k) :
    n % Nat.pow 256 width = k % Nat.pow 256 width := by
  induction width with
  | zero => rw [show Nat.pow 256 0 = 1 from rfl, Nat.mod_one, Nat.mod_one]
  | succ width ih =>
    obtain ⟨hhead, htail⟩ := List.cons.inj h
    have hbyte : n / Nat.pow 256 width % 256 = k / Nat.pow 256 width % 256 := by
      simpa using congrArg UInt8.toNat hhead
    rw [show Nat.pow 256 (width + 1) = Nat.pow 256 width * 256 from rfl, Nat.mod_mul, Nat.mod_mul,
      hbyte, ih htail]

theorem toList_loop (bytes : ByteArray) (i : Nat) (read : List UInt8) :
    ByteArray.toList.loop bytes i read = read.reverse ++ bytes.data.toList.drop i := by
  induction i, read using ByteArray.toList.loop.induct bytes with
  | case1 i read hi ih =>
    have hdrop : bytes.data.toList.drop i =
        bytes.get! i :: bytes.data.toList.drop (i + 1) := by
      rw [drop_eq_getElem_cons (by simpa using hi)]
      simp [ByteArray.get!, hi]
    rw [ByteArray.toList.loop, if_pos hi, ih, hdrop, reverse_cons, append_assoc]
    rfl
  | case2 i read hi =>
    have hdrop : bytes.data.toList.drop i = [] := drop_of_length_le (by simpa using hi)
    rw [ByteArray.toList.loop, if_neg hi, hdrop, append_nil]

theorem toUTF8_toList_inj {s t : String} (h : s.toUTF8.toList = t.toUTF8.toList) : s = t := by
  unfold ByteArray.toList at h
  rw [toList_loop, toList_loop] at h
  exact String.toByteArray_inj.1 (ByteArray.ext (Array.toList_inj.1 h))

namespace Utf8Text

theorem bytes_inj {t u : Utf8Text} (h : t.bytes = u.bytes) : t = u := by
  have hwell : ∀ text : String, String.fromUTF8? ⟨text.toUTF8.toList.toArray⟩ = some text := by
    intro text
    unfold ByteArray.toList
    rw [toList_loop]
    simp only [String.fromUTF8?, reverse_nil, drop_zero, nil_append, Array.toArray_toList]
    exact dif_pos text.isValidUTF8
  cases t with
  | string text =>
    cases u with
    | string text' => exact congrArg string (toUTF8_toList_inj h)
    | malformed bytes hbytes =>
      rw [← show text.toUTF8.toList = bytes from h, hwell] at hbytes
      cases hbytes
  | malformed bytes hbytes =>
    cases u with
    | string text =>
      rw [show bytes = text.toUTF8.toList from h, hwell] at hbytes
      cases hbytes
    | malformed bytes' hbytes' =>
      cases show bytes = bytes' from h
      rfl

end Utf8Text

theorem ConstantPool.slots_inj {p q : ConstantPool} (h : p.slots = q.slots) : p = q := by
  obtain ⟨slots, index, hindex⟩ := p
  obtain ⟨slots', index', hindex'⟩ := q
  cases show slots = slots' from h
  cases hindex
  cases hindex'
  rfl

/-! ### Records that can be read -/

/-- Among values that fit, the records of two with something after each are the same only if the
values look the same to `view` and what comes after them is the same. -/
def Readable {α β γ : Type} (fits : α → Prop) (record : α → List γ) (view : α → β) : Prop :=
  ∀ ⦃a b : α⦄ ⦃rest rest' : List γ⦄, fits a → fits b →
    record a ++ rest = record b ++ rest' → view a = view b ∧ rest = rest'

namespace Readable

variable {α β γ δ ε : Type} {fits fits' : α → Prop} {record record' : α → List γ}
  {view : α → β} {view' : α → δ}

theorem imp (h : Readable fits record view) (hfits : ∀ a, fits' a → fits a)
    (hview : ∀ a b, fits' a → fits' b → view a = view b → view' a = view' b) :
    Readable fits' record view' := by
  intro a b rest rest' ha hb heq
  obtain ⟨hab, hrest⟩ := h (hfits a ha) (hfits b hb) heq
  exact ⟨hview a b ha hb hab, hrest⟩

theorem comp (h : Readable fits record view) (part : ε → α) :
    Readable (fun a => fits (part a)) (fun a => record (part a)) (fun a => view (part a)) :=
  fun _ _ _ _ ha hb heq => h ha hb heq

theorem append (h : Readable fits record view) (h' : Readable fits' record' view') :
    Readable (fun a => fits a ∧ fits' a) (fun a => record a ++ record' a)
      (fun a => (view a, view' a)) := by
  intro a b rest rest' ha hb heq
  rw [append_assoc, append_assoc] at heq
  obtain ⟨hview, heq⟩ := h ha.1 hb.1 heq
  obtain ⟨hview', hrest⟩ := h' ha.2 hb.2 heq
  exact ⟨Prod.ext hview hview', hrest⟩

theorem append_left (h : Readable fits record view) (letters : List γ) :
    Readable fits (fun a => letters ++ record a) view := by
  intro a b rest rest' ha hb heq
  rw [append_assoc, append_assoc] at heq
  exact h ha hb (append_cancel_left heq)

theorem inj (h : Readable fits record view) {a b : α} (ha : fits a) (hb : fits b)
    (heq : record a = record b) : view a = view b :=
  (h ha hb (congrArg (· ++ []) heq)).1

theorem ofLength {length : Nat} (hlength : ∀ a, fits a → (record a).length = length)
    (hinj : ∀ a b, fits a → fits b → record a = record b → view a = view b) :
    Readable fits record view := by
  intro a b rest rest' ha hb heq
  obtain ⟨hrecord, hrest⟩ := append_inj heq ((hlength a ha).trans (hlength b hb).symm)
  exact ⟨hinj a b ha hb hrecord, hrest⟩

theorem flatMap (h : Readable fits record view) {l k : List α} (hlength : l.length = k.length)
    {rest rest' : List γ} (hl : ∀ a ∈ l, fits a) (hk : ∀ a ∈ k, fits a)
    (heq : l.flatMap record ++ rest = k.flatMap record ++ rest') :
    l.map view = k.map view ∧ rest = rest' := by
  induction l generalizing k with
  | nil =>
    cases length_eq_zero_iff.1 hlength.symm
    exact ⟨rfl, heq⟩
  | cons a l ih =>
    cases k with
    | nil => cases hlength
    | cons b k =>
      rw [forall_mem_cons] at hl hk
      rw [flatMap_cons, flatMap_cons, append_assoc, append_assoc] at heq
      -- The first records end at the same place, which leaves those of the other members.
      obtain ⟨hview, heq⟩ := h hl.1 hk.1 heq
      obtain ⟨hviews, hrest⟩ := ih (Nat.succ.inj hlength) hl.2 hk.2 heq
      exact ⟨congrArg₂ List.cons hview hviews, hrest⟩

end Readable

namespace Fingerprint

/-! ### Parts -/

/-- A length that four bytes can hold. -/
def FitsLength {α : Type} (l : List α) : Prop :=
  l.length < Nat.pow 256 4

/-- An integer that eight bytes can hold. -/
def FitsInteger (n : Int) : Prop :=
  -9223372036854775808 ≤ n ∧ n < 9223372036854775808

/-- A string whose length four bytes can hold. -/
def FitsString (s : String) : Prop :=
  FitsLength s.toUTF8.toList

/-- A list that is short enough and whose members all fit. -/
def FitsList {α : Type} (fits : α → Prop) (l : List α) : Prop :=
  FitsLength l ∧ ∀ a ∈ l, fits a

instance {α : Type} (l : List α) : Decidable (FitsLength l) :=
  inferInstanceAs (Decidable (_ < _))

instance (n : Int) : Decidable (FitsInteger n) :=
  inferInstanceAs (Decidable (_ ∧ _))

instance (s : String) : Decidable (FitsString s) :=
  inferInstanceAs (Decidable (FitsLength _))

instance {α : Type} (fits : α → Prop) [DecidablePred fits] (l : List α) :
    Decidable (FitsList fits l) :=
  inferInstanceAs (Decidable (_ ∧ _))

theorem readable_bigEndian (width : Nat) :
    Readable (fun n => n < Nat.pow 256 width) (bigEndian width) id := by
  refine Readable.ofLength (fun n _ => length_bigEndian width n) ?_
  intro n k hn hk heq
  have hmod := bigEndian_inj heq
  rwa [Nat.mod_eq_of_lt hn, Nat.mod_eq_of_lt hk] at hmod

theorem readable_octets : Readable FitsLength octets id := by
  intro a b rest rest' ha hb heq
  unfold octets at heq
  rw [append_assoc, append_assoc] at heq
  obtain ⟨hlength, heq⟩ := readable_bigEndian 4 ha hb heq
  exact append_inj heq hlength

theorem readable_string : Readable FitsString string id :=
  (readable_octets.comp fun s : String => s.toUTF8.toList).imp (fun _ hs => hs)
    fun _ _ _ _ heq => toUTF8_toList_inj heq

theorem readable_list {α β : Type} {fits : α → Prop} {record : α → List UInt8} {view : α → β}
    (h : Readable fits record view) : Readable (FitsList fits) (list record) (List.map view) := by
  intro l k rest rest' hl hk heq
  unfold list at heq
  rw [append_assoc, append_assoc] at heq
  obtain ⟨hlength, heq⟩ := readable_bigEndian 4 hl.1 hk.1 heq
  exact h.flatMap hlength hl.2 hk.2 heq

theorem readable_integer : Readable FitsInteger integer id := by
  refine Readable.ofLength (fun n _ => length_bigEndian 8 _) ?_
  intro n k hn hk heq
  have hmod := bigEndian_inj heq
  have hpow : (Nat.pow 256 8) = 18446744073709551616 := by decide
  rw [hpow] at hmod
  unfold FitsInteger at hn hk
  show n = k
  omega

theorem readable_access : Readable (fun _ => True) access id := by
  refine Readable.ofLength (fun a _ => length_bigEndian 2 _) ?_
  intro a b _ _ heq
  have hmod := bigEndian_inj heq
  have ha := a.bits.toNat_lt
  have hb := b.bits.toNat_lt
  have hbits : a.bits.toNat = b.bits.toNat := by
    have hpow : (Nat.pow 256 2) = 65536 := by decide
    rw [hpow] at hmod
    omega
  exact congrArg AccessFlags.mk (UInt16.toNat_inj.1 hbits)

/-! ### Pool entries -/

/-- What a record holds of a pool entry, after its kind. -/
def payload : Constant → List UInt8
  | .utf8 text => octets text.bytes
  | .integer value => integer value.toInt
  | .float bits => bigEndian 4 bits.toNat
  | .long value => integer value.toInt
  | .double bits => bigEndian 8 bits.toNat
  | c => integer c.references.1 ++ integer c.references.2

theorem slot_some (c : Constant) : slot (some c) = c.tag.code :: payload c := by
  cases c <;> rfl

/-- The text of a pool entry is not too long, and the numbers it refers to others by fit. -/
def BoundedConstant : Constant → Prop
  | .utf8 text => FitsLength text.bytes
  | c => FitsInteger c.references.1 ∧ FitsInteger c.references.2

instance : DecidablePred BoundedConstant := fun c => by
  cases c
  case utf8 text => exact inferInstanceAs (Decidable (FitsLength _))
  all_goals exact inferInstanceAs (Decidable (_ ∧ _))

theorem readable_references : Readable
    (fun c : Constant => FitsInteger c.references.1 ∧ FitsInteger c.references.2)
    (fun c => integer c.references.1 ++ integer c.references.2) references :=
  ((readable_integer.comp fun c : Constant => c.references.1).append
    (readable_integer.comp fun c : Constant => c.references.2)).imp (fun _ hc => hc)
    fun _ _ _ _ heq => heq

theorem payload_inj {c d : Constant} {rest rest' : List UInt8} (hc : BoundedConstant c)
    (hd : BoundedConstant d) (htag : c.tag = d.tag)
    (heq : payload c ++ rest = payload d ++ rest') : c = d ∧ rest = rest' := by
  cases c with
  | utf8 text =>
    cases d with
    | utf8 text' =>
      obtain ⟨hbytes, hrest⟩ := readable_octets hc hd heq
      exact ⟨congrArg utf8 (Utf8Text.bytes_inj hbytes), hrest⟩
    | _ => cases htag
  | integer value =>
    cases d with
    | integer value' =>
      have hfits (i : Int32) : FitsInteger i.toInt := by
        have hle := i.le_toInt
        have hlt := i.toInt_lt
        unfold FitsInteger
        omega
      obtain ⟨hvalue, hrest⟩ := readable_integer (hfits value) (hfits value') heq
      exact ⟨congrArg Constant.integer (Int32.toInt_inj.1 hvalue), hrest⟩
    | _ => cases htag
  | long value =>
    cases d with
    | long value' =>
      have hfits (i : Int64) : FitsInteger i.toInt := ⟨i.le_toInt, i.toInt_lt⟩
      obtain ⟨hvalue, hrest⟩ := readable_integer (hfits value) (hfits value') heq
      exact ⟨congrArg long (Int64.toInt_inj.1 hvalue), hrest⟩
    | _ => cases htag
  | float bits =>
    cases d with
    | float bits' =>
      obtain ⟨hbits, hrest⟩ := readable_bigEndian 4 bits.toNat_lt bits'.toNat_lt heq
      exact ⟨congrArg float (UInt32.toNat_inj.1 hbits), hrest⟩
    | _ => cases htag
  | double bits =>
    cases d with
    | double bits' =>
      obtain ⟨hbits, hrest⟩ := readable_bigEndian 8 bits.toNat_lt bits'.toNat_lt heq
      exact ⟨congrArg double (UInt64.toNat_inj.1 hbits), hrest⟩
    | _ => cases htag
  | _ =>
    -- The other kinds hold references alone.
    cases d <;> cases htag
    obtain ⟨href, hrest⟩ := readable_references hc hd heq
    simp only [references, Prod.mk.injEq, Int.natCast_inj, and_true] at href
    simp only [href, hrest, and_self]

theorem code_inj {a b : Tag} (h : a.code = b.code) : a = b := by
  cases a <;> cases b <;> first | rfl | cases h

theorem readable_slot : Readable (∀ c ∈ ·, BoundedConstant c) slot id := by
  intro a b rest rest' ha hb heq
  cases a with
  | none =>
    cases b with
    | none => exact ⟨rfl, (List.cons.inj heq).2⟩
    | some d =>
      rw [slot_some] at heq
      have hcode : 0 = d.tag.code := (List.cons.inj heq).1
      cases d <;> cases hcode
  | some c =>
    cases b with
    | none =>
      rw [slot_some] at heq
      have hcode : c.tag.code = 0 := (List.cons.inj heq).1
      cases c <;> cases hcode
    | some d =>
      rw [slot_some, slot_some] at heq
      obtain ⟨hcode, heq⟩ := List.cons.inj heq
      obtain ⟨hcd, hrest⟩ := payload_inj (ha c rfl) (hb d rfl) (code_inj hcode) heq
      exact ⟨congrArg some hcd, hrest⟩

/-! ### Classes and methods -/

/-- The names in the header of a class are not too long. -/
def BoundedHeader (c : Class) : Prop :=
  FitsString c.name ∧ FitsString c.superName ∧ FitsList FitsString c.interfaces

/-- The parts of a class that assignability depends on fit. No class is named by the empty string. -/
def FitsHeader (c : Class) : Prop :=
  FitsString c.name ∧ (c.super ≠ some "" ∧ FitsString c.superName) ∧
    FitsList FitsString c.interfaces

/-- The name and descriptor of a member fit. -/
def FitsSignature (name descriptor : String) : Prop :=
  FitsString name ∧ FitsString descriptor

/-- The offsets and the pool index of a handler fit. -/
def FitsHandler (h : Handler) : Prop :=
  FitsInteger h.start ∧ FitsInteger h.stop ∧ FitsInteger h.target ∧ FitsInteger h.catchIndex

/-- The lengths and numbers of a method fit. -/
def FitsBody (m : Method) : Prop :=
  FitsSignature m.name m.descriptor ∧ FitsInteger m.maxStack ∧ FitsInteger m.maxLocals ∧
    FitsLength m.code ∧ FitsList FitsHandler m.handlers

/-- The lengths and numbers of all that a method reads of its own class fit. -/
def BoundedMethod (c : Class) (m : Method) : Prop :=
  BoundedHeader c ∧ FitsList (∀ k ∈ ·, BoundedConstant k) c.pool.slots.toList ∧ FitsBody m

/-- All that a method reads of its own class fits. -/
def FitsMethod (c : Class) (m : Method) : Prop :=
  FitsHeader c ∧ FitsList (∀ k ∈ ·, BoundedConstant k) c.pool.slots.toList ∧
    FitsSignature m.name m.descriptor ∧ FitsInteger m.maxStack ∧ FitsInteger m.maxLocals ∧
    FitsLength m.code ∧ FitsList FitsHandler m.handlers

/-- The fields and methods of a class are not too many, and have short names. -/
def FitsMembers (c : Class) : Prop :=
  FitsList (fun f : Field => FitsSignature f.name f.descriptor) c.fields ∧
    FitsList (fun m : Method => FitsSignature m.name m.descriptor) c.methods

/-- The lengths of all that a class shows to others fit. -/
def BoundedClass (c : Class) : Prop :=
  BoundedHeader c ∧ FitsMembers c

/-- All that a class shows to others fits. -/
def FitsClass (c : Class) : Prop :=
  FitsHeader c ∧ FitsList (fun f : Field => FitsSignature f.name f.descriptor) c.fields ∧
    FitsList (fun m : Method => FitsSignature m.name m.descriptor) c.methods

instance (c : Class) : Decidable (BoundedHeader c) :=
  inferInstanceAs (Decidable (_ ∧ _))

instance (c : Class) : Decidable (FitsHeader c) :=
  inferInstanceAs (Decidable (_ ∧ _))

instance (name descriptor : String) : Decidable (FitsSignature name descriptor) :=
  inferInstanceAs (Decidable (_ ∧ _))

instance (h : Handler) : Decidable (FitsHandler h) :=
  inferInstanceAs (Decidable (_ ∧ _))

instance (m : Method) : Decidable (FitsBody m) :=
  inferInstanceAs (Decidable (_ ∧ _))

instance (c : Class) (m : Method) : Decidable (BoundedMethod c m) :=
  inferInstanceAs (Decidable (_ ∧ _))

instance (c : Class) (m : Method) : Decidable (FitsMethod c m) :=
  inferInstanceAs (Decidable (_ ∧ _))

instance (c : Class) : Decidable (FitsMembers c) :=
  inferInstanceAs (Decidable (_ ∧ _))

instance (c : Class) : Decidable (BoundedClass c) :=
  inferInstanceAs (Decidable (_ ∧ _))

instance (c : Class) : Decidable (FitsClass c) :=
  inferInstanceAs (Decidable (_ ∧ _))

theorem FitsHeader.bounded {c : Class} (h : FitsHeader c) : BoundedHeader c :=
  ⟨h.1, h.2.1.2, h.2.2⟩

theorem superName_inj {c d : Class} (hc : c.super ≠ some "") (hd : d.super ≠ some "")
    (h : c.superName = d.superName) : c.super = d.super := by
  unfold Class.superName at h
  cases hsuper : c.super with
  | none =>
    cases hsuper' : d.super with
    | none => rfl
    | some name =>
      rw [hsuper, hsuper'] at h
      cases h
      exact absurd hsuper' hd
  | some name =>
    cases hsuper' : d.super with
    | none =>
      rw [hsuper, hsuper'] at h
      cases h
      exact absurd hsuper hc
    | some name' =>
      rw [hsuper, hsuper'] at h
      exact congrArg some h

theorem readable_header : Readable BoundedHeader header fun c =>
    (c.name, c.superName, c.interfaces, c.access) := by
  have h := (((readable_string.comp Class.name).append
    (readable_string.comp Class.superName)).append
    ((readable_list readable_string).comp Class.interfaces)).append
    (readable_access.comp Class.access)
  refine h.imp ?_ ?_
  · intro c ⟨hname, hsuper, hinterfaces⟩
    exact ⟨⟨⟨hname, hsuper⟩, hinterfaces⟩, trivial⟩
  · intro c d _ _ heq
    simp only [Prod.mk.injEq, map_id, id] at heq
    obtain ⟨⟨⟨hname, hsuper⟩, hinterfaces⟩, haccess⟩ := heq
    rw [hname, hsuper, hinterfaces, haccess]

theorem readable_signature {α : Type} (name descriptor : α → String) (flags : α → AccessFlags) :
    Readable (fun a => FitsSignature (name a) (descriptor a))
      (fun a => signature (name a) (descriptor a) (flags a))
      (fun a => (name a, descriptor a, flags a)) := by
  have h := ((readable_string.comp name).append (readable_string.comp descriptor)).append
    (readable_access.comp flags)
  refine h.imp (fun a ha => ⟨ha, trivial⟩) ?_
  intro a b _ _ heq
  simp only [Prod.mk.injEq, id] at heq
  rw [heq.1.1, heq.1.2, heq.2]

theorem readable_handler : Readable FitsHandler handler id := by
  have h := (((readable_integer.comp Handler.start).append
    (readable_integer.comp Handler.stop)).append
    (readable_integer.comp Handler.target)).append (readable_integer.comp Handler.catchIndex)
  refine h.imp (fun a ⟨h₁, h₂, h₃, h₄⟩ => ⟨⟨⟨h₁, h₂⟩, h₃⟩, h₄⟩) ?_
  intro ⟨start, stop, target, index⟩ ⟨start', stop', target', index'⟩ _ _ heq
  simp only [Prod.mk.injEq, id] at heq
  obtain ⟨⟨⟨rfl, rfl⟩, rfl⟩, rfl⟩ := heq
  rfl

/-- What a record holds of a method that is seen from elsewhere. -/
def shownMethod (m : Method) : String × String × AccessFlags :=
  (m.name, m.descriptor, m.access)

/-- What a record holds of a class that is seen from elsewhere: its name, superclass, interfaces and
flags, and the names, descriptors and flags of its fields and methods. -/
def shown (c : Class) : String × String × List String × AccessFlags × List Field ×
    List (String × String × AccessFlags) :=
  (c.name, c.superName, c.interfaces, c.access, c.fields, c.methods.map shownMethod)

theorem readable_classRecord : Readable BoundedClass classRecord shown := by
  have h := (readable_header.append
    ((readable_list (readable_signature Field.name Field.descriptor Field.access)).comp
      Class.fields)).append
    ((readable_list (readable_signature Method.name Method.descriptor Method.access)).comp
      Class.methods)
  refine h.imp (fun c ⟨h₁, h₂, h₃⟩ => ⟨⟨h₁, h₂⟩, h₃⟩) ?_
  intro c d _ _ heq
  simp only [Prod.mk.injEq] at heq
  obtain ⟨⟨⟨hname, hsuper, hinterfaces, haccess⟩, hfields⟩, hmethods⟩ := heq
  have hfields : c.fields = d.fields := by
    refine map_injective_iff.2 ?_ hfields
    intro ⟨name, descriptor, access⟩ ⟨name', descriptor', access'⟩ heq
    cases heq
    rfl
  have hmethods : c.methods.map shownMethod = d.methods.map shownMethod := hmethods
  unfold shown
  rw [hname, hsuper, hinterfaces, haccess, hfields, hmethods]

/-- Where no class is named by the empty string, a record tells all that a class shows. -/
theorem readable_outline : Readable FitsClass classRecord Class.outline := by
  refine readable_classRecord.imp (fun c h => ⟨h.1.bounded, h.2⟩) ?_
  intro c d ⟨hc, _⟩ ⟨hd, _⟩ heq
  simp only [shown, Prod.mk.injEq] at heq
  obtain ⟨hname, hsuper, hinterfaces, haccess, hfields, hmethods⟩ := heq
  have hmethods : c.methods.map Method.outline = d.methods.map Method.outline := by
    have houtline : Method.outline = (fun s : String × String × AccessFlags =>
        { name := s.1, descriptor := s.2.1, access := s.2.2 }) ∘ shownMethod := rfl
    rw [houtline, ← map_map, ← map_map, hmethods]
  unfold Class.outline
  rw [hname, superName_inj hc.2.1.1 hd.2.1.1 hsuper, hinterfaces, haccess, hfields, hmethods]

/-! ### Whole records -/

/-- The record of a method tells the method, and of its class the header and what can be read of the
constants. -/
theorem readable_methodRecord :
    Readable (fun p : Class × Method => BoundedMethod p.1 p.2) (fun p => methodRecord p.1 p.2)
      fun p => ((p.1.name, p.1.superName, p.1.interfaces, p.1.access), p.1.pool, p.2) := by
  have h := ((((((readable_header.comp Prod.fst).append
    ((readable_list readable_slot).comp fun p : Class × Method => p.1.pool.slots.toList)).append
    (readable_signature (·.2.name) (·.2.descriptor) (·.2.access))).append
    (readable_integer.comp (·.2.maxStack))).append
    (readable_integer.comp (·.2.maxLocals))).append
    (readable_octets.comp (·.2.code))).append
    ((readable_list readable_handler).comp (·.2.handlers))
  refine (h.append_left [layoutVersion, 'M'.toUInt8]).imp ?_ ?_
  · intro p ⟨h₁, h₂, h₃, h₄, h₅, h₆, h₇⟩
    exact ⟨⟨⟨⟨⟨⟨h₁, h₂⟩, h₃⟩, h₄⟩, h₅⟩, h₆⟩, h₇⟩
  · intro ⟨c, m⟩ ⟨d, n⟩ _ _ heq
    simp only [Prod.mk.injEq, map_id, id] at heq
    obtain ⟨⟨⟨⟨⟨⟨hheader, hpool⟩, hsignature⟩, hstack⟩, hlocals⟩, hcode⟩, hhandlers⟩ := heq
    have hmethod : m = n := by
      cases m
      obtain ⟨rfl, rfl, rfl⟩ := hsignature
      cases hstack
      cases hlocals
      cases hcode
      cases hhandlers
      rfl
    simp only [hheader, ConstantPool.slots_inj (Array.toList_inj.1 hpool), hmethod]

theorem methodRecord_inj {c d : Class} {m n : Method} (hm : FitsMethod c m) (hn : FitsMethod d n)
    (heq : methodRecord c m = methodRecord d n) : c.withoutMembers = d.withoutMembers ∧ m = n := by
  have hview := readable_methodRecord.inj (a := (c, m)) (b := (d, n))
    ⟨hm.1.bounded, hm.2⟩ ⟨hn.1.bounded, hn.2⟩ heq
  simp only [Prod.mk.injEq] at hview
  obtain ⟨⟨hname, hsuper, hinterfaces, haccess⟩, hpool, hmethod⟩ := hview
  refine ⟨?_, hmethod⟩
  unfold Class.withoutMembers
  rw [hname, superName_inj hm.1.2.1.1 hn.1.2.1.1 hsuper, hinterfaces, haccess, hpool]

/-- The lengths of all that the classes of a table show to others fit. -/
def BoundedTable (t : ClassTable) : Prop :=
  FitsList BoundedClass t.classes

/-- All that the classes of a table show to others fits. -/
def FitsTable (t : ClassTable) : Prop :=
  FitsList FitsClass t.classes

instance (t : ClassTable) : Decidable (BoundedTable t) :=
  inferInstanceAs (Decidable (FitsList _ _))

instance (t : ClassTable) : Decidable (FitsTable t) :=
  inferInstanceAs (Decidable (FitsList _ _))

/-- The record of a table tells what can be read of its classes, in the order of their names. -/
theorem readable_hierarchyRecord {β : Type} {fits : Class → Prop} {view : Class → β}
    (hclass : Readable fits classRecord view) :
    Readable (fun t : ClassTable => FitsList fits t.classes) hierarchyRecord
      fun t => t.sorted.map view := by
  have h := ((readable_list hclass).comp ClassTable.sorted).append_left [layoutVersion, 'H'.toUInt8]
  refine h.imp ?_ (fun t u _ _ heq => heq)
  intro t ⟨hlength, hclasses⟩
  have hperm : t.sorted.Perm t.classes := mergeSort_perm _ _
  refine ⟨?_, fun c hc => hclasses c (hperm.mem_iff.1 hc)⟩
  unfold FitsLength
  rw [hperm.length_eq]
  exact hlength

theorem hierarchyRecord_inj {t u : ClassTable} (ht : FitsTable t) (hu : FitsTable u)
    (heq : hierarchyRecord t = hierarchyRecord u) : t.outlines = u.outlines :=
  (readable_hierarchyRecord readable_outline).inj ht hu heq

theorem readable_digest : Readable (fun digest : List UInt8 => digest.length = 32) id id :=
  Readable.ofLength (fun _ h => h) fun _ _ _ _ heq => heq

theorem readable_keyRecord :
    Readable (fun k : List UInt8 × List UInt8 × VerifyOptions =>
        k.1.length = 32 ∧ k.2.1.length = 32 ∧ FitsInteger k.2.2.traceLimit)
      (fun k => keyRecord k.1 k.2.1 k.2.2) id := by
  have hstrict : Readable (fun _ : Bool => True)
      (fun strict => [if strict then (1 : UInt8) else 0]) id := by
    refine Readable.ofLength (fun _ _ => rfl) ?_
    intro a b _ _ heq
    cases a <;> cases b <;> first | rfl | cases heq
  have h := ((readable_digest.comp Prod.fst).append
    (readable_digest.comp fun k : List UInt8 × List UInt8 × VerifyOptions => k.2.1)).append
    ((hstrict.comp (·.2.2.strict)).append (readable_integer.comp (·.2.2.traceLimit)))
  refine (h.append_left [layoutVersion, 'K'.toUInt8]).imp ?_ ?_
  · intro k ⟨h₁, h₂, h₃⟩
    exact ⟨⟨h₁, h₂⟩, trivial, h₃⟩
  · intro ⟨method, hierarchy, ⟨strict, limit⟩⟩ ⟨method', hierarchy', ⟨strict', limit'⟩⟩ _ _ heq
    simp only [Prod.mk.injEq, id] at heq
    obtain ⟨⟨rfl, rfl⟩, rfl, rfl⟩ := heq
    rfl

/-- The record of a key tells the two digests and the options. -/
theorem keyRecord_inj {method hierarchy method' hierarchy' : List UInt8}
    {options options' : VerifyOptions}
    (hdigests : method.length = 32 ∧ hierarchy.length = 32)
    (hdigests' : method'.length = 32 ∧ hierarchy'.length = 32)
    (hlimit : FitsInteger options.traceLimit) (hlimit' : FitsInteger options'.traceLimit)
    (heq : keyRecord method hierarchy options = keyRecord method' hierarchy' options') :
    method = method' ∧ hierarchy = hierarchy' ∧ options = options' := by
  have hparts := readable_keyRecord.inj (a := (method, hierarchy, options))
    (b := (method', hierarchy', options')) ⟨hdigests.1, hdigests.2, hlimit⟩
    ⟨hdigests'.1, hdigests'.2, hlimit'⟩ heq
  simpa only [id, Prod.mk.injEq] using hparts

/-! ### Digests -/

theorem length_digest (message : List UInt8) : (Sha256.digest message).length = 32 := by
  unfold Sha256.digest Sha256.State.words
  simp only [flatMap_cons, flatMap_nil, length_append, length_bigEndian, length_nil]

theorem readDigits?_hexByte (b : UInt8) :
    (Text.hexByte b).toList.length = 2 ∧
      Text.readDigits? 16 2 0 (Text.hexByte b).toList = some (b.toNat, []) := by
  have h : ∀ n : Nat, n < 256 → (Text.hexDigits 2 n).toList.length = 2 ∧
      Text.readDigits? 16 2 0 (Text.hexDigits 2 n).toList = some (n, []) := by
    decide +kernel
  exact h b.toNat b.toNat_lt

theorem readable_hexByte :
    Readable (fun _ : UInt8 => True) (fun b => (Text.hexByte b).toList) id := by
  refine Readable.ofLength (fun b _ => (readDigits?_hexByte b).1) ?_
  intro a b _ _ heq
  have hread := (readDigits?_hexByte a).2
  rw [heq, (readDigits?_hexByte b).2] at hread
  exact UInt8.toNat_inj.1 (Prod.mk.inj (Option.some.inj hread)).1.symm

theorem toList_text (digest : List UInt8) :
    (text digest).toList = digest.flatMap fun b => (Text.hexByte b).toList := by
  unfold text
  rw [String.toList_join, flatMap_map]

theorem text_inj {a b : List UInt8} (hlength : a.length = b.length) (heq : text a = text b) :
    a = b := by
  have hchars := congrArg String.toList heq
  rw [toList_text, toList_text] at hchars
  have hmap := (readable_hexByte.flatMap hlength (fun _ _ => trivial) (fun _ _ => trivial)
    (congrArg (· ++ []) hchars)).1
  rwa [map_id, map_id] at hmap

end Fingerprint

end Bytecode
