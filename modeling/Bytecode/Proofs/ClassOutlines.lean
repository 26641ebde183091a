import Bytecode.Proofs.ClassSearches
import Bytecode.Proofs.Outlines

/-!
Class tables that show the same classes to others.

Main statement: `hierarchy_outline_congr`, all the answers that a verification needs follow from
what the classes show.
-/
namespace Bytecode

open List

/-- A method with its class, as both are seen from elsewhere. -/
def outlineMember (r : Method × Class) : Method × Class :=
  (r.1.outline, r.2.outline)

namespace Class

theorem super_outline (c : Class) : c.outline.super = c.super := rfl

theorem interfaces_outline (c : Class) : c.outline.interfaces = c.interfaces := rfl

theorem method?_outline (c : Class) (name desc : String) :
    c.outline.method? name desc = (c.method? name desc).map Method.outline :=
  find?_map

theorem filter_method?_outline (c : Class) (name desc : String) {p : Method → Bool}
    (hp : ∀ m : Method, p m.outline = p m) :
    (c.outline.method? name desc).filter p =
      ((c.method? name desc).filter p).map Method.outline := by
  rw [method?_outline, Option.filter_map]
  exact congrArg (fun q => ((c.method? name desc).filter q).map Method.outline) (funext hp)

end Class

namespace ClassTable

theorem searchInterfaces_cons {t : ClassTable} {name desc current : String}
    {queue seen done : List String} {c : Class} (hdone : ¬done.contains current = true)
    (hfind : t.find? current = some c) :
    t.searchInterfaces name desc (current :: queue) seen done =
      match t.scanInterfaces name desc seen c.interfaces with
      | .error e => .error e
      | .ok (some found, _) => .ok (some found)
      | .ok (none, fresh) =>
        match c.super with
        | none => t.searchInterfaces name desc (queue ++ fresh) (fresh ++ seen) (current :: done)
        | some super =>
          match t.lookup super with
          | .error e => .error e
          | .ok _ =>
            t.searchInterfaces name desc (queue ++ fresh ++ [super]) (fresh ++ seen)
              (current :: done) := by
  rw [searchInterfaces, dif_neg hdone]
  split
  · next hnone => cases hfind.symm.trans hnone
  · next d hd =>
    cases hfind.symm.trans hd
    rfl

/-- The table `u` has the outlines of the classes of `t`, and as many. -/
structure Outlines (t u : ClassTable) : Prop where
  find? : ∀ name, u.find? name = (t.find? name).map Class.outline
  size : u.size = t.size

namespace Outlines

variable {t u : ClassTable} (hu : t.Outlines u)
include hu

theorem find?_eq_none {name : String} (hfind : t.find? name = none) : u.find? name = none := by
  rw [hu.find?, hfind, Option.map_none]

theorem find?_eq_some {name : String} {c : Class} (hfind : t.find? name = some c) :
    u.find? name = some c.outline := by
  rw [hu.find?, hfind, Option.map_some]

theorem lookup (name : String) : u.lookup name = (t.lookup name).map Class.outline := by
  unfold ClassTable.lookup
  rw [hu.find?]
  cases t.find? name <;> rfl

/-! ### Superclasses -/

theorem superclassesFrom (name : String) (super : Option String) (seen : List String) :
    u.superclassesFrom name super seen = t.superclassesFrom name super seen := by
  fun_induction t.superclassesFrom name super seen with
  | case1 seen => rw [ClassTable.superclassesFrom]
  | case2 seen super hseen => rw [ClassTable.superclassesFrom, dif_pos hseen]
  | case3 seen super hseen hfind =>
    have hnone := hu.find?_eq_none hfind
    rw [ClassTable.superclassesFrom, dif_neg hseen]
    split
    · rfl
    · next c hc => cases hnone.symm.trans hc
  | case4 seen super hseen c hfind _ ih =>
    have hsome := hu.find?_eq_some hfind
    rw [ClassTable.superclassesFrom, dif_neg hseen]
    split
    · next hnone => cases hsome.symm.trans hnone
    · next d hd =>
      cases hsome.symm.trans hd
      exact congrArg (Except.map _) ih

theorem superclasses (name : String) : u.superclasses name = t.superclasses name := by
  unfold ClassTable.superclasses
  rw [hu.lookup]
  cases t.lookup name with
  | error e => rfl
  | ok c => exact hu.superclassesFrom name c.super [name]

theorem isSubclassOf (sub super : String) : u.isSubclassOf sub super = t.isSubclassOf sub super := by
  unfold ClassTable.isSubclassOf
  rw [hu.superclasses]

theorem commonSuperclass (a b : String) : u.commonSuperclass a b = t.commonSuperclass a b := by
  unfold ClassTable.commonSuperclass
  rw [hu.superclasses, hu.superclasses]

theorem isCircular (name : String) : u.isCircular name = t.isCircular name := by
  unfold ClassTable.isCircular
  rw [hu.superclasses]

/-! ### Members -/

/-- A search finds the outline of what it finds in the classes themselves. -/
theorem search {α β : Type} {visit : Class → Option α} {visit' : Class → Option β} {f : α → β}
    (hvisit : ∀ c : Class, visit' c.outline = (visit c).map f) (work seen : List String) :
    u.search (fun _ => none) visit' work seen =
      (t.search (fun _ => none) visit work seen).map (Option.map f) := by
  generalize hstop : (fun _ : String => (none : Option α)) = stop
  fun_induction t.search stop visit work seen with
  | case1 seen => rw [ClassTable.search]; rfl
  | case2 seen name work a ha =>
    subst hstop
    cases ha
  | case3 seen name work _ hseen ih =>
    rw [ClassTable.search, dif_pos hseen, ih]
  | case4 seen name work _ hseen hfind =>
    have hnone := hu.find?_eq_none hfind
    rw [ClassTable.search, dif_neg hseen]
    dsimp only
    split
    · rfl
    · next c hc => cases hnone.symm.trans hc
  | case5 seen name work _ hseen c hfind _ a ha =>
    have hsome := hu.find?_eq_some hfind
    rw [ClassTable.search, dif_neg hseen]
    dsimp only
    split
    · next hnone => cases hsome.symm.trans hnone
    · next d hd =>
      cases hsome.symm.trans hd
      rw [hvisit, ha]
      rfl
  | case6 seen name work _ hseen c hfind _ hnot ih =>
    have hsome := hu.find?_eq_some hfind
    rw [ClassTable.search, dif_neg hseen]
    dsimp only
    split
    · next hnone => cases hsome.symm.trans hnone
    · next d hd =>
      cases hsome.symm.trans hd
      rw [hvisit, hnot]
      exact ih

theorem resolveField (owner name desc : String) :
    u.resolveField owner name desc =
      (t.resolveField owner name desc).map fun r => (r.1, r.2.outline) := by
  have hvisit : ∀ c : Class, (c.outline.field? name desc).map (·, c.outline) =
      ((c.field? name desc).map (·, c)).map fun r => (r.1, r.2.outline) := fun c => by
    rw [Option.map_map]
    rfl
  unfold ClassTable.resolveField
  rw [hu.search hvisit]
  cases t.search (fun _ => none) (fun c => (c.field? name desc).map (·, c)) [owner] [] with
  | error e => rfl
  | ok found => cases found <;> rfl

theorem methodAbove (name desc : String) (c : Class) (seen : List String) :
    u.methodAbove name desc c.outline seen =
      (t.methodAbove name desc c seen).map (Option.map outlineMember) := by
  fun_induction t.methodAbove name desc c seen with
  | case1 c seen m hm =>
    rw [ClassTable.methodAbove, Class.method?_outline, hm]
    rfl
  | case2 c seen hm hsuper =>
    rw [ClassTable.methodAbove, Class.method?_outline, hm, c.super_outline, hsuper]
    rfl
  | case3 c seen hm super hsuper hseen =>
    rw [ClassTable.methodAbove, Class.method?_outline, hm, c.super_outline, hsuper]
    dsimp only [Option.map_none]
    rw [dif_pos hseen]
    rfl
  | case4 c seen hm super hsuper hseen hfind =>
    have hnone := hu.find?_eq_none hfind
    rw [ClassTable.methodAbove, Class.method?_outline, hm, c.super_outline, hsuper]
    dsimp only [Option.map_none]
    rw [dif_neg hseen]
    split
    · rfl
    · next d hd => cases hnone.symm.trans hd
  | case5 c seen hm super hsuper hseen above hfind _ ih =>
    have hsome := hu.find?_eq_some hfind
    rw [ClassTable.methodAbove, Class.method?_outline, hm, c.super_outline, hsuper]
    dsimp only [Option.map_none]
    rw [dif_neg hseen]
    split
    · next hnone => cases hsome.symm.trans hnone
    · next d hd =>
      cases hsome.symm.trans hd
      exact ih

theorem scanInterfaces (name desc : String) (seen interfaces : List String) :
    u.scanInterfaces name desc seen interfaces =
      (t.scanInterfaces name desc seen interfaces).map fun r =>
        (r.1.map outlineMember, r.2) := by
  induction interfaces generalizing seen with
  | nil => rfl
  | cons i rest ih =>
    rw [ClassTable.scanInterfaces, ClassTable.scanInterfaces]
    by_cases hi : seen.contains i = true
    · rw [if_pos hi, if_pos hi, ih]
    · rw [if_neg hi, if_neg hi, hu.lookup, ih]
      cases t.lookup i with
      | error e => rfl
      | ok c =>
        dsimp only [Except.map, bind, Except.bind]
        rw [c.filter_method?_outline name desc fun m => rfl]
        cases (c.method? name desc).filter fun m => !m.access.has .privateBit && !m.isStatic with
        | some m => rfl
        | none => cases t.scanInterfaces name desc (i :: seen) rest <;> rfl

theorem searchInterfaces (name desc : String) (queue seen done : List String) :
    u.searchInterfaces name desc queue seen done =
      (t.searchInterfaces name desc queue seen done).map (Option.map outlineMember) := by
  have hcircular : u.isCircular = t.isCircular := funext hu.isCircular
  -- The classes on the queue are searched in the order of the original table, so the cases are
  -- those of its search.
  fun_induction t.searchInterfaces name desc queue seen done with
  | case1 seen done circle hcircle =>
    rw [ClassTable.searchInterfaces, hcircular, hcircle]
    rfl
  | case2 seen done hcircle =>
    rw [ClassTable.searchInterfaces, hcircular, hcircle]
    rfl
  | case3 seen done current queue hdone ih =>
    rw [ClassTable.searchInterfaces, dif_pos hdone, ih]
  | case4 seen done current queue hdone hfind =>
    have hnone := hu.find?_eq_none hfind
    rw [ClassTable.searchInterfaces, dif_neg hdone]
    split
    · rfl
    · next d hd => cases hnone.symm.trans hd
  | case5 seen done current queue hdone c hfind _ e hscan =>
    rw [searchInterfaces_cons hdone (hu.find?_eq_some hfind), hu.scanInterfaces,
      c.interfaces_outline, hscan]
    rfl
  | case6 seen done current queue hdone c hfind _ found rest hscan =>
    rw [searchInterfaces_cons hdone (hu.find?_eq_some hfind), hu.scanInterfaces,
      c.interfaces_outline, hscan]
    rfl
  | case7 seen done current queue hdone c hfind _ fresh hscan hsuper ih =>
    rw [searchInterfaces_cons hdone (hu.find?_eq_some hfind), hu.scanInterfaces,
      c.interfaces_outline, hscan, c.super_outline, hsuper]
    exact ih
  | case8 seen done current queue hdone c hfind _ fresh hscan super hsuper e hlookup =>
    rw [searchInterfaces_cons hdone (hu.find?_eq_some hfind), hu.scanInterfaces,
      c.interfaces_outline, hscan, c.super_outline, hsuper]
    dsimp only [Except.map, Option.map_none]
    rw [hu.lookup, hlookup]
    rfl
  | case9 seen done current queue hdone c hfind _ fresh hscan super hsuper d hlookup ih =>
    rw [searchInterfaces_cons hdone (hu.find?_eq_some hfind), hu.scanInterfaces,
      c.interfaces_outline, hscan, c.super_outline, hsuper]
    dsimp only [Except.map, Option.map_none]
    rw [hu.lookup, hlookup]
    exact ih

theorem resolveMethod (owner name desc : String) :
    u.resolveMethod owner name desc =
      (t.resolveMethod owner name desc).map outlineMember := by
  unfold ClassTable.resolveMethod
  rw [hu.lookup, hu.searchInterfaces]
  cases t.lookup owner with
  | error e => rfl
  | ok c =>
    show (u.methodAbove name desc c.outline [owner] >>= _) = _
    rw [hu.methodAbove]
    dsimp only [bind, Except.bind]
    cases t.methodAbove name desc c [owner] with
    | error e => rfl
    | ok found =>
      cases found with
      | some m => rfl
      | none =>
        cases t.searchInterfaces name desc [owner] [] [] with
        | error e => rfl
        | ok found => cases found <;> rfl

theorem resolveInterfaceMethod (owner name desc : String) :
    u.resolveInterfaceMethod owner name desc =
      (t.resolveInterfaceMethod owner name desc).map outlineMember := by
  unfold ClassTable.resolveInterfaceMethod
  rw [hu.lookup, hu.lookup, hu.searchInterfaces]
  cases t.lookup owner with
  | error e => rfl
  | ok c =>
    dsimp only [bind, Except.bind, Except.map]
    rw [Class.method?_outline]
    cases c.method? name desc with
    | some m => rfl
    | none =>
      dsimp only [Option.map_none]
      cases t.lookup objectClass with
      | error e => rfl
      | ok object =>
        dsimp only
        rw [object.filter_method?_outline name desc fun m => rfl]
        cases (object.method? name desc).filter fun m => m.access.has .publicBit && !m.isStatic with
        | some m => rfl
        | none =>
          cases t.searchInterfaces name desc [owner] [] [] with
          | error e => rfl
          | ok found => cases found <;> rfl

theorem hierarchy : u.hierarchy = t.hierarchy.outline := by
  unfold ClassTable.hierarchy Hierarchy.outline
  simp only [hu.size, Hierarchy.mk.injEq, funext_iff, and_true]
  exact ⟨hu.lookup, hu.isSubclassOf, hu.commonSuperclass, hu.resolveField, hu.resolveMethod,
    hu.resolveInterfaceMethod⟩

end Outlines

/-! ### Classes in order -/

/-- The classes of a table in the order of their names, as others see them. -/
def outlines (t : ClassTable) : List Class :=
  t.sorted.map Class.outline

theorem name_le_trans (a b c : Class) (hab : decide (a.name ≤ b.name) = true)
    (hbc : decide (b.name ≤ c.name) = true) : decide (a.name ≤ c.name) = true :=
  decide_eq_true (String.le_trans (of_decide_eq_true hab) (of_decide_eq_true hbc))

theorem name_le_total (a b : Class) :
    (decide (a.name ≤ b.name) || decide (b.name ≤ a.name)) = true := by
  simpa using String.le_total a.name b.name

theorem pairwise_sorted (t : ClassTable) : t.sorted.Pairwise fun a b => a.name ≤ b.name :=
  (pairwise_mergeSort name_le_trans name_le_total t.classes).imp of_decide_eq_true

/-- Sorting by name keeps the first class of each name first. -/
theorem find?_sorted (t : ClassTable) (name : String) :
    t.sorted.find? (fun c => c.name == name) = t.find? name := by
  -- The classes of one name are in order as they stand, and sorting is stable.
  have hsub : (t.classes.filter fun c => c.name == name).Sublist t.sorted := by
    refine sublist_mergeSort name_le_trans name_le_total ?_ filter_sublist
    refine pairwise_of_forall_mem_list fun a ha b hb => ?_
    have ha : a.name = name := by simpa using (mem_filter.1 ha).2
    have hb : b.name = name := by simpa using (mem_filter.1 hb).2
    rw [ha, hb]
    exact decide_eq_true (String.le_refl name)
  have hfilter : (t.classes.filter fun c => c.name == name) =
      t.sorted.filter fun c => c.name == name := by
    refine List.Sublist.eq_of_length ?_ ?_
    · simpa only [filter_filter, Bool.and_self] using hsub.filter fun c => c.name == name
    · exact ((mergeSort_perm t.classes _).filter _).length_eq.symm
  rw [find?, ← head?_filter, ← head?_filter, hfilter]

theorem outlines_ofSorted (t : ClassTable) : t.Outlines ⟨t.outlines⟩ where
  find? name := by
    show (t.sorted.map Class.outline).find? _ = _
    rw [find?_map, ← t.find?_sorted]
    rfl
  size := by
    show (t.sorted.map Class.outline).length = _
    rw [length_map]
    exact (mergeSort_perm t.classes _).length_eq

theorem outlines_ofMap (t : ClassTable) : t.Outlines ⟨t.classes.map Class.outline⟩ where
  find? name := by
    show (t.classes.map Class.outline).find? _ = _
    rw [find?_map]
    rfl
  size := by
    show (t.classes.map Class.outline).length = _
    rw [length_map]
    rfl

/-- Classes that show the same, in the same order, give the same answers. -/
theorem hierarchy_outline_of_classes {t u : ClassTable}
    (heq : t.classes.map Class.outline = u.classes.map Class.outline) :
    t.hierarchy.outline = u.hierarchy.outline := by
  rw [← t.outlines_ofMap.hierarchy, heq, u.outlines_ofMap.hierarchy]

theorem hierarchy_outline_congr {t u : ClassTable} (heq : t.outlines = u.outlines) :
    t.hierarchy.outline = u.hierarchy.outline := by
  rw [← t.outlines_ofSorted.hierarchy, heq, u.outlines_ofSorted.hierarchy]

end ClassTable

/-- A verdict follows from the method, what its class shows to it, what the classes show to others,
and the options. -/
theorem verify_congr {t u : ClassTable} {c d : Class} (options : VerifyOptions) (runId : String)
    (m : Method) (hclasses : t.outlines = u.outlines)
    (howner : c.withoutMembers = d.withoutMembers) :
    verify t options runId c m = verify u options runId d m := by
  rw [← verify_outline t, ← verify_outline u, ClassTable.hierarchy_outline_congr hclasses, howner]

end Bytecode
