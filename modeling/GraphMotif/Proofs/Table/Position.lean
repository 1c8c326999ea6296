import GraphMotif.Table
import Mathlib.Data.List.Basic
import Mathlib.Data.List.GetD
import Mathlib.Data.List.Nodup

/-!
# Positions of columns

A name is looked up as its first position among the names of a table. Renaming all columns apart
keeps positions, and putting columns side by side keeps those of the left ones.
-/

namespace GraphMotif

/-- Two tests that agree on the items of a list agree on whether all items pass. -/
theorem all_congr_of_mem {α : Type} {xs : List α} {p q : α → Bool} (h : ∀ x ∈ xs, p x = q x) :
    xs.all p = xs.all q := by
  rw [Bool.eq_iff_iff, List.all_eq_true, List.all_eq_true]
  exact forall₂_congr fun x hx => by rw [h x hx]

/-- Two tests that agree on the items of a list agree on whether some item passes. -/
theorem any_congr_of_mem {α : Type} {xs : List α} {p q : α → Bool} (h : ∀ x ∈ xs, p x = q x) :
    xs.any p = xs.any q := by
  rw [Bool.eq_iff_iff, List.any_eq_true, List.any_eq_true]
  exact exists_congr fun x => and_congr_right fun hx => by rw [h x hx]

theorem isEmpty_filter {α : Type} (xs : List α) (p : α → Bool) :
    (xs.filter p).isEmpty = !xs.any p := by
  rw [Bool.eq_iff_iff, List.isEmpty_iff, List.filter_eq_nil_iff, Bool.not_eq_true', List.any_eq_false]

/-- The only item that passes a test is the first one. -/
theorem find?_eq_some_of_unique {α : Type} {xs : List α} {p : α → Bool} {a : α} (ha : a ∈ xs)
    (hp : p a = true) (h : ∀ b ∈ xs, p b = true → b = a) : xs.find? p = some a := by
  cases hfind : xs.find? p with
  | none => exact absurd hp (List.find?_eq_none.1 hfind a ha)
  | some b => rw [h b (List.mem_of_find?_eq_some hfind) (List.find?_some hfind)]

theorem idxOf_map_of_injective {α β : Type} [DecidableEq α] [DecidableEq β] {f : α → β}
    (hf : Function.Injective f) (xs : List α) (a : α) : (xs.map f).idxOf (f a) = xs.idxOf a := by
  rw [List.idxOf, List.findIdx_map, List.idxOf]
  refine congrArg (fun p => xs.findIdx p) (funext fun b => ?_)
  rw [Function.comp_apply, Bool.eq_iff_iff, beq_iff_eq, beq_iff_eq, hf.eq_iff]

theorem flatMap_filter {α β : Type} (xs : List α) (p : α → Bool) (f : α → List β) :
    (xs.filter p).flatMap f = xs.flatMap fun x => if p x then f x else [] := by
  induction xs with
  | nil => rfl
  | cons x xs ih =>
    rw [List.flatMap_cons, ← ih]
    cases hp : p x with
    | true => rw [List.filter_cons_of_pos hp, List.flatMap_cons, if_pos rfl]
    | false =>
      rw [List.filter_cons_of_neg (by rw [hp]; exact Bool.false_ne_true), if_neg Bool.false_ne_true,
        List.nil_append]

/-- The cells at the positions of the items of a list, none of which repeats, are the row. -/
theorem Row.map_cell_idxOf {α : Type} [DecidableEq α] {names : List α} (h : names.Nodup) {row : Row}
    (hlength : row.length = names.length) :
    names.map (fun name => row.cell (names.idxOf name)) = row := by
  refine List.ext_getElem ((List.length_map ..).trans hlength.symm) fun i hi hi' => ?_
  rw [List.getElem_map, h.idxOf_getElem, Row.cell, List.getD_eq_getElem?_getD,
    List.getElem?_eq_getElem hi', Option.getD_some]

theorem Row.cell_append_left {row : Row} {i : Nat} (h : i < row.length) (row' : Row) :
    Row.cell (row ++ row') i = row.cell i := List.getD_append _ _ _ _ h

theorem Row.cell_append_right (row row' : Row) (i : Nat) :
    Row.cell (row ++ row') (row.length + i) = row'.cell i := by
  rw [Row.cell, List.getD_append_right _ _ _ _ (Nat.le_add_right ..), Nat.add_sub_cancel_left]
  rfl

namespace Table

variable {ν : Type} (t : Table ν)

theorem length_names : t.names.length = t.headings.length := List.length_map ..

theorem kind_columnAt (i : Nat) :
    (t.columnAt i).kind = (t.headings[i]?.map (·.kind)).getD .mixed := rfl

theorem position?_eq_some [DecidableEq ν] {name : ν} (h : name ∈ t.names) :
    t.position? name = some (t.names.idxOf name) := by
  have hnames : t.position? name = t.names.findIdx? (· == name) := by
    rw [Table.names, List.findIdx?_map]
    rfl
  rw [hnames, List.findIdx?_eq_some_iff_findIdx_eq]
  exact ⟨List.idxOf_lt_length_of_mem h, rfl⟩

theorem position?_eq_none [DecidableEq ν] {name : ν} (h : name ∉ t.names) :
    t.position? name = none := by
  refine List.findIdx?_eq_none_iff.2 fun heading hheading => decide_eq_false ?_
  rintro rfl
  exact h (List.mem_map_of_mem hheading)

theorem column?_eq_none_iff [DecidableEq ν] {name : ν} :
    t.column? name = none ↔ name ∉ t.names := by
  rw [column?, Option.map_eq_none_iff]
  constructor
  · intro hnone hname
    rw [t.position?_eq_some hname] at hnone
    cases hnone
  · exact t.position?_eq_none

end Table

end GraphMotif
