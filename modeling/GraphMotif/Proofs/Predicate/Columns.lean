import GraphMotif.Proofs.Predicate.Evaluation

/-!
# Predicates read their columns only

The two runs of a predicate over tables that agree on its columns go the same way. The induction is
on the predicate: an operator hands on what its operands give, and asks for no column itself. No
operator passes an operand over, so a column that is missing is always an error.
-/

namespace GraphMotif

variable {ν : Type} [DecidableEq ν] [ColumnName ν]

/-- Two tables have as many rows as each other, and every column of the given names in both, stored
alike and with the same cells, or in neither. -/
structure Table.AgreeOn (names : List String) (t t' : Table ν) : Prop where
  size : t.size = t'.size
  columns : ∀ name ∈ names, t.column? (ColumnName.ofText name) = t'.column? (ColumnName.ofText name)

namespace Table

variable {t t' : Table ν} {names names' : List String}

theorem AgreeOn.of_subset (h : AgreeOn names t t') (hnames : names' ⊆ names) :
    AgreeOn names' t t' :=
  ⟨h.size, fun name hname => h.columns name (hnames hname)⟩

theorem AgreeOn.mem_names_iff (h : AgreeOn names t t') {name : String} (hname : name ∈ names) :
    ColumnName.ofText name ∈ t.names ↔ ColumnName.ofText name ∈ t'.names := by
  rw [← not_iff_not, ← t.column?_eq_none_iff, ← t'.column?_eq_none_iff, h.columns name hname]

end Table

namespace Predicate

variable {t t' : Table ν} {p : Predicate}

/-- Over tables that agree on its columns and have them, a predicate has one value or fails with one
error. -/
theorem eval_congr (h : Table.AgreeOn p.columns t t')
    (hpresent : ∀ name ∈ p.columns, ColumnName.ofText name ∈ t.names) : p.eval t = p.eval t' := by
  induction p with
  | column name =>
    have hsome : t.column? (ColumnName.ofText name) ≠ none := fun hnone =>
      (t.column?_eq_none_iff).1 hnone (hpresent name (List.mem_singleton_self name))
    have hcolumn := h.columns name (List.mem_singleton_self name)
    rw [eval, eval, ← hcolumn]
    cases hc : t.column? (ColumnName.ofText name) with
    | none => exact absurd hc hsome
    | some c => rfl
  | constant v => rfl
  | compare op left right ihl ihr =>
    obtain ⟨hl, hr⟩ := List.forall_mem_append.1 hpresent
    rw [eval, eval, ihl (h.of_subset (List.subset_append_left ..)) hl,
      ihr (h.of_subset (List.subset_append_right ..)) hr, h.size]
  | conj left right ihl ihr =>
    obtain ⟨hl, hr⟩ := List.forall_mem_append.1 hpresent
    rw [eval, eval, ihl (h.of_subset (List.subset_append_left ..)) hl,
      ihr (h.of_subset (List.subset_append_right ..)) hr, h.size]
  | disj left right ihl ihr =>
    obtain ⟨hl, hr⟩ := List.forall_mem_append.1 hpresent
    rw [eval, eval, ihl (h.of_subset (List.subset_append_left ..)) hl,
      ihr (h.of_subset (List.subset_append_right ..)) hr, h.size]
  | neg operand ih => rw [eval, eval, ih h hpresent, h.size]
  | isNull operand negated ih => rw [eval, eval, ih h hpresent, h.size]

theorem mask_congr (h : Table.AgreeOn p.columns t t')
    (hpresent : ∀ name ∈ p.columns, ColumnName.ofText name ∈ t.names) : p.mask t = p.mask t' := by
  rw [mask, mask, eval_congr h hpresent, h.size]

/-- A predicate cannot be evaluated without all of its columns. -/
theorem mask_of_missing {name : String} (hname : name ∈ p.columns)
    (hmissing : ColumnName.ofText name ∉ t.names) : ∃ e, p.mask t = .error e := by
  rcases mask_succeeds t p with ⟨hevaluable, -⟩ | ⟨-, herror⟩
  · exact absurd (hevaluable.columns name hname) hmissing
  · exact herror

/-- The age of two persons, beside what a predicate on the age does not read. -/
def agesTable (other : String) (v : Value) : Table String where
  headings := [⟨other, .mixed⟩, ⟨"age", .int⟩]
  rows := [[v, .int 31], [.null, .int 17]]
  rectangular := by simp

end Predicate

end GraphMotif
