import Mathlib.Data.List.Basic
import Mathlib.Data.List.Induction
import Mathlib.Data.List.Nodup

/-!
# First occurrences

Erasing repetitions keeps the first occurrence of every item.
-/

namespace GraphMotif

variable {α : Type} [DecidableEq α]

theorem eraseDups_concat (xs : List α) (x : α) :
    (xs ++ [x]).eraseDups = if x ∈ xs then xs.eraseDups else xs.eraseDups ++ [x] := by
  rw [List.eraseDups_append, List.removeAll, List.filter_singleton]
  split
  · next h =>
    rw [List.elem_iff.2 h, Bool.not_true, cond_false, List.eraseDups_nil, List.append_nil]
  · next h =>
    rw [Bool.eq_false_iff.2 (mt List.elem_iff.1 h), Bool.not_false, cond_true]
    rfl

theorem nodup_eraseDups (xs : List α) : xs.eraseDups.Nodup := by
  induction xs using List.reverseRecOn with
  | nil => exact .nil
  | append_singleton xs x ih =>
    rw [eraseDups_concat]
    split
    · exact ih
    · next h =>
      rw [← List.concat_eq_append]
      exact ih.concat (mt List.mem_eraseDups.1 h)

theorem filter_eraseDups (p : α → Bool) (xs : List α) :
    xs.eraseDups.filter p = (xs.filter p).eraseDups := by
  induction xs using List.reverseRecOn with
  | nil => rfl
  | append_singleton xs x ih =>
    rw [eraseDups_concat, List.filter_append, List.filter_singleton]
    cases hp : p x with
    | false =>
      rw [cond_false, List.append_nil, ← ih]
      split
      · rfl
      · rw [List.filter_append, List.filter_singleton, hp, cond_false, List.append_nil]
    | true =>
      have hmem : x ∈ xs.filter p ↔ x ∈ xs := by rw [List.mem_filter, and_iff_left hp]
      rw [cond_true, eraseDups_concat, if_congr hmem rfl rfl, ← ih]
      split
      · rfl
      · rw [List.filter_append, List.filter_singleton, hp, cond_true]

theorem eraseDups_of_nodup {xs : List α} (h : xs.Nodup) : xs.eraseDups = xs := by
  induction xs using List.reverseRecOn with
  | nil => rfl
  | append_singleton xs x ih =>
    obtain ⟨hxs, -, hdisjoint⟩ := List.nodup_append.1 h
    rw [eraseDups_concat, if_neg fun hx => hdisjoint x hx x List.mem_cons_self rfl, ih hxs]

/-- Items that occur before are erased. -/
theorem eraseDups_append_of_subset {xs ys : List α} (h : ∀ y ∈ ys, y ∈ xs) :
    (xs ++ ys).eraseDups = xs.eraseDups := by
  rw [List.eraseDups_append, List.removeAll, List.filter_eq_nil_iff.2, List.eraseDups_nil,
    List.append_nil]
  intro y hy
  rw [List.elem_iff.2 (h y hy)]
  exact Bool.false_ne_true

theorem eraseDups_eraseDups_append (xs ys : List α) :
    (xs.eraseDups ++ ys).eraseDups = (xs ++ ys).eraseDups := by
  induction ys using List.reverseRecOn with
  | nil => rw [List.append_nil, List.append_nil, eraseDups_of_nodup (nodup_eraseDups xs)]
  | append_singleton ys y ih =>
    rw [← List.append_assoc, ← List.append_assoc, eraseDups_concat, eraseDups_concat, ih]
    simp only [List.mem_append, List.mem_eraseDups]

/-- A function that tells the items apart can be applied before or after repetitions are erased. -/
theorem map_eraseDups {β : Type} [DecidableEq β] {f : α → β} {xs : List α}
    (h : ∀ x ∈ xs, ∀ y ∈ xs, f x = f y → x = y) :
    (xs.map f).eraseDups = xs.eraseDups.map f := by
  induction xs using List.reverseRecOn with
  | nil => rfl
  | append_singleton xs x ih =>
    have hmem : f x ∈ xs.map f ↔ x ∈ xs := by
      constructor
      · intro hfx
        obtain ⟨y, hy, heq⟩ := List.mem_map.1 hfx
        rw [← h y (List.mem_append_left _ hy) x List.mem_concat_self heq]
        exact hy
      · exact List.mem_map_of_mem
    rw [List.map_append, List.map_singleton, eraseDups_concat, eraseDups_concat,
      if_congr hmem rfl rfl,
      ih fun x hx y hy => h x (List.mem_append_left _ hx) y (List.mem_append_left _ hy)]
    split
    · rfl
    · rw [List.map_append, List.map_singleton]

end GraphMotif
