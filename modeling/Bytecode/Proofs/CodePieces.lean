import Bytecode.CodeBuilder
import Bytecode.Proofs.Failing

/-!
The code in a builder, piece by piece: bytes that stay as they are, and holes for the branches to
labels. A finished code array is that of its pieces, with the offset of its label in every hole.

Main statement: `CodeBuilder.Holds.finish`, the bytes of a finished code array.
-/
namespace Bytecode

open List

/-- A piece of code in the making: bytes, or a hole for the distance from an offset to a label. -/
inductive Piece where
  | bytes (l : List UInt8)
  | hole (base : Nat) (label : String) (wide : Bool)
  deriving DecidableEq, Repr

namespace CodeBuilder

/-- The offset of a label; one that is not bound stands for the start of the code. -/
def place (b : CodeBuilder) (label : String) : Nat :=
  (b.offset? label).getD 0

theorem place_eq {b : CodeBuilder} {label : String} {pos : Nat} (h : b.offset? label = some pos) :
    b.place label = pos := by
  rw [place, h, Option.getD_some]

end CodeBuilder

namespace Piece

/-- The bytes of a piece before the labels are known. -/
def blank : Piece → List UInt8
  | .bytes l => l
  | .hole _ _ true => [0, 0, 0, 0]
  | .hole _ _ false => [0, 0]

/-- The bytes of a piece, with the offsets of the labels. -/
def fill (place : String → Nat) : Piece → List UInt8
  | .bytes l => l
  | .hole base label true => bytes4 ((place label : Int) - base)
  | .hole base label false => bytes2 ((place label : Int) - base)

/-- A hole that the builder can fill: its label is bound, near enough for the room there is. -/
def Fits (b : CodeBuilder) : Piece → Prop
  | .bytes _ => True
  | .hole base label wide =>
    b.offset? label = some (b.place label) ∧
      (wide = false → fitsSigned 16 ((b.place label : Int) - base) = true)

/-- The fixups of pieces from an offset on. -/
def fixups (pos : Nat) : List Piece → List Fixup
  | [] => []
  | .bytes l :: rest => fixups (pos + l.length) rest
  | .hole base label wide :: rest =>
    ⟨pos, base, label, wide⟩ :: fixups (pos + (hole base label wide).blank.length) rest

@[simp] theorem fill_bytes (place : String → Nat) (l : List UInt8) : (bytes l).fill place = l :=
  rfl

@[simp] theorem fill_hole (place : String → Nat) (base : Nat) (label : String) (wide : Bool) :
    (hole base label wide).fill place =
      if wide then bytes4 ((place label : Int) - base)
      else bytes2 ((place label : Int) - base) := by
  cases wide <;> rfl

theorem length_fill (place : String → Nat) (p : Piece) :
    (p.fill place).length = p.blank.length := by
  match p with
  | .bytes _ => rfl
  | .hole _ _ true => rfl
  | .hole _ _ false => rfl

theorem length_flatMap_fill (place : String → Nat) (pieces : List Piece) :
    (pieces.flatMap (fill place)).length = (pieces.flatMap blank).length := by
  simp only [length_flatMap, length_fill]

theorem fixups_append (pos : Nat) (left right : List Piece) :
    fixups pos (left ++ right) =
      fixups pos left ++ fixups (pos + (left.flatMap blank).length) right := by
  induction left generalizing pos with
  | nil => rfl
  | cons p left ih =>
    cases p with
    | bytes l =>
      show fixups (pos + l.length) (left ++ right) = fixups (pos + l.length) left ++ _
      rw [ih, flatMap_cons, length_append, Nat.add_assoc]
      rfl
    | hole base label wide =>
      simp only [cons_append, fixups, ih, flatMap_cons, length_append, Nat.add_assoc]

end Piece

namespace CodeBuilder

/-! ### Appending pieces -/

/-- Appends pieces. -/
def add (b : CodeBuilder) (pieces : List Piece) : CodeBuilder :=
  pieces.foldl (fun b p =>
    match p with
    | .bytes l => b.raw l
    | .hole base label wide => b.hole base label wide) b

theorem raw_eq_add (b : CodeBuilder) (l : List UInt8) : b.raw l = b.add [.bytes l] :=
  rfl

theorem hole_eq_add (b : CodeBuilder) (base : Nat) (label : String) (wide : Bool) :
    b.hole base label wide = b.add [.hole base label wide] :=
  rfl

theorem add_add (b : CodeBuilder) (left right : List Piece) :
    (b.add left).add right = b.add (left ++ right) :=
  (foldl_append ..).symm

theorem foldl_add {α : Type} (f : α → List Piece) (l : List α) (b : CodeBuilder) :
    l.foldl (fun b a => b.add (f a)) b = b.add (l.flatMap f) := by
  induction l generalizing b with
  | nil => rfl
  | cons a l ih => rw [foldl_cons, ih, add_add, flatMap_cons]

theorem field_add {α : Type} {field : CodeBuilder → α}
    (hraw : ∀ (b : CodeBuilder) l, field (b.raw l) = field b)
    (hhole : ∀ (b : CodeBuilder) base label wide, field (b.hole base label wide) = field b)
    (b : CodeBuilder) (pieces : List Piece) : field (b.add pieces) = field b := by
  induction pieces generalizing b with
  | nil => rfl
  | cons p pieces ih =>
    cases p with
    | bytes l => exact (ih (b.raw l)).trans (hraw b l)
    | hole base label wide =>
      exact (ih (b.hole base label wide)).trans (hhole b base label wide)

@[simp] theorem labels_add (b : CodeBuilder) (pieces : List Piece) :
    (b.add pieces).labels = b.labels :=
  field_add (fun _ _ => rfl) (fun _ _ _ _ => rfl) b pieces

@[simp] theorem fault_add (b : CodeBuilder) (pieces : List Piece) :
    (b.add pieces).fault = b.fault :=
  field_add (fun _ _ => rfl) (fun _ _ _ _ => rfl) b pieces

theorem toList_code_add (b : CodeBuilder) (pieces : List Piece) :
    (b.add pieces).code.toList = b.code.toList ++ pieces.flatMap Piece.blank := by
  induction pieces generalizing b with
  | nil => exact (append_nil _).symm
  | cons p pieces ih =>
    have hpiece : (b.add [p]).code.toList = b.code.toList ++ p.blank := by
      match p with
      | .bytes l => exact Array.toList_append
      | .hole base label true => exact Array.toList_append
      | .hole base label false => exact Array.toList_append
    rw [← singleton_append, ← add_add, ih, hpiece, append_assoc]
    rfl

theorem length_add (b : CodeBuilder) (pieces : List Piece) :
    (b.add pieces).length = b.length + (pieces.flatMap Piece.blank).length := by
  rw [length, length, ← Array.length_toList, toList_code_add, length_append, Array.length_toList]

/-- The code and the fixups of a builder are those of some pieces. -/
structure Holds (b : CodeBuilder) (pieces : List Piece) : Prop where
  code : b.code.toList = pieces.flatMap Piece.blank
  fixups : b.fixups.toList = Piece.fixups 0 pieces

theorem holds_empty : empty.Holds [] :=
  ⟨rfl, rfl⟩

variable {b : CodeBuilder} {pieces : List Piece} {left right : List UInt8}

theorem Holds.length {b : CodeBuilder} {pieces : List Piece} (h : b.Holds pieces) :
    b.length = (pieces.flatMap Piece.blank).length := by
  rw [← h.code, Array.length_toList]
  rfl

theorem Holds.piece (h : b.Holds pieces) (p : Piece) : (b.add [p]).Holds (pieces ++ [p]) := by
  refine ⟨?_, ?_⟩
  · rw [toList_code_add, h.code, flatMap_append]
  · rw [Piece.fixups_append, ← h.fixups, ← h.length, Nat.zero_add]
    cases p with
    | bytes l => exact (append_nil _).symm
    | hole base label wide => exact Array.toList_push

theorem Holds.add (h : b.Holds pieces) (more : List Piece) :
    (b.add more).Holds (pieces ++ more) := by
  induction more generalizing b pieces with
  | nil => rwa [append_nil]
  | cons p more ih =>
    rw [← singleton_append, ← add_add, ← append_assoc]
    exact ih (h.piece p)

/-! ### Filling the holes -/

theorem patch_append (left old bytes right : List UInt8) (h : bytes.length = old.length) :
    patch (left ++ old ++ right).toArray left.length bytes =
      (left ++ bytes ++ right).toArray := by
  induction bytes generalizing left old with
  | nil =>
    rw [eq_nil_of_length_eq_zero h.symm]
    rfl
  | cons byte bytes ih =>
    cases old with
    | nil => cases h
    | cons first old =>
      have hset : (left ++ first :: old ++ right).toArray.setIfInBounds left.length byte =
          ((left ++ [byte]) ++ old ++ right).toArray := by
        simp
      have hnext := ih (left ++ [byte]) old (Nat.succ.inj h)
      rw [length_append, length_singleton] at hnext
      show patch ((left ++ first :: old ++ right).toArray.setIfInBounds left.length byte)
        (left.length + 1) bytes = _
      rw [hset, hnext]
      simp

theorem resolve_hole {base : Nat} {label : String} {wide : Bool} {code : Array UInt8}
    (h : b.resolve (left ++ (Piece.hole base label wide).blank ++ right).toArray
      ⟨left.length, base, label, wide⟩ = .ok code) :
    code = (left ++ (Piece.hole base label wide).fill b.place ++ right).toArray ∧
      (Piece.hole base label wide).Fits b := by
  unfold resolve at h
  split at h
  · cases h
  · next target htarget =>
    have hplace := place_eq htarget
    cases wide with
    | true =>
      cases h
      refine ⟨?_, by rw [hplace]; exact htarget, nofun⟩
      rw [← hplace]
      exact patch_append left _ _ right rfl
    | false =>
      simp only [Bool.false_eq_true, if_false] at h
      split at h
      · next hnear =>
        cases h
        refine ⟨?_, by rw [hplace]; exact htarget, fun _ => by rw [hplace]; exact hnear⟩
        rw [← hplace]
        exact patch_append left _ _ right rfl
      · cases h

theorem foldlM_resolve {code : Array UInt8} (h : (Piece.fixups left.length pieces).foldlM b.resolve
      (left ++ pieces.flatMap Piece.blank ++ right).toArray = .ok code) :
    code.toList = left ++ pieces.flatMap (Piece.fill b.place) ++ right ∧
      ∀ p ∈ pieces, p.Fits b := by
  -- The bytes of a piece that is done belong to those on the left.
  induction pieces generalizing left with
  | nil =>
    cases h
    exact ⟨by simp, nofun⟩
  | cons p pieces ih =>
    rw [flatMap_cons, ← append_assoc left] at h ⊢
    cases p with
    | bytes l =>
      rw [Piece.fixups, ← length_append] at h
      obtain ⟨hcode, hfits⟩ := ih h
      exact ⟨hcode, forall_mem_cons.2 ⟨trivial, hfits⟩⟩
    | hole base label wide =>
      rw [Piece.fixups, foldlM_cons, append_assoc (left ++ _)] at h
      obtain ⟨patched, hpatched, h⟩ := bind_eq_ok.1 h
      obtain ⟨rfl, hfit⟩ := resolve_hole hpatched
      rw [← append_assoc, ← Piece.length_fill b.place, ← length_append] at h
      obtain ⟨hcode, hfits⟩ := ih h
      exact ⟨hcode, forall_mem_cons.2 ⟨hfit, hfits⟩⟩

/-- A finished code array is that of the pieces, all of which fit. -/
theorem Holds.finish {code : Array UInt8} (h : b.Holds pieces) (hcode : b.finish = .ok code) :
    code.toList = pieces.flatMap (Piece.fill b.place) ∧ ∀ p ∈ pieces, p.Fits b := by
  unfold CodeBuilder.finish at hcode
  split at hcode
  · cases hcode
  · rw [← Array.foldlM_toList, h.fixups] at hcode
    have hblank : b.code = ([] ++ pieces.flatMap Piece.blank ++ []).toArray := by
      rw [← h.code]
      simp
    rw [hblank] at hcode
    obtain ⟨htext, hfits⟩ := foldlM_resolve hcode
    exact ⟨by simpa using htext, hfits⟩

end CodeBuilder

end Bytecode
