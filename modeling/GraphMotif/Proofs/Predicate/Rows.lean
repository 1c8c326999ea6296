import GraphMotif.Proofs.Predicate.Evaluation

/-!
# Predicates are evaluated row by row

Rows of a table that are chosen by their positions, in any order and as often as one likes, make a
table under the same headings. Whether a predicate can be evaluated is decided for whole columns:
an operand stands for truth values if all its cells do, and a comparison fails for all rows if it
does for one. But every reason to fail is a column that is missing or a single row, and the value on
a row depends on the headings and that row only. So choosing rows only takes away reasons to fail
and changes no mark; and a mask is made of what the headings alone and each row by itself allow.
-/

namespace GraphMotif

namespace Table

variable {ν : Type}

/-- The row at a position. -/
def rowAt (t : Table ν) (i : Fin t.size) : Row := t.rows.get i

/-- The rows at the given positions, in that order and as often as their positions are given. -/
def rowsAt (t : Table ν) (positions : List (Fin t.size)) : Table ν where
  headings := t.headings
  rows := positions.map t.rowAt
  rectangular row hrow := by
    obtain ⟨i, -, rfl⟩ := List.mem_map.1 hrow
    exact t.rectangular _ (t.rows.get_mem i)

variable {t : Table ν} {positions : List (Fin t.size)} {row : Row}

theorem headings_rowsAt (positions : List (Fin t.size)) :
    (t.rowsAt positions).headings = t.headings := rfl

theorem rows_rowsAt (positions : List (Fin t.size)) :
    (t.rowsAt positions).rows = positions.map t.rowAt := rfl

theorem mem_rows_of_rowsAt (h : row ∈ (t.rowsAt positions).rows) : row ∈ t.rows := by
  obtain ⟨i, -, rfl⟩ := List.mem_map.1 h
  exact t.rows.get_mem i

/-- Every row of a table is the row of one position. -/
theorem exists_mem_rowsAt_singleton (h : row ∈ t.rows) : ∃ i, row ∈ (t.rowsAt [i]).rows := by
  obtain ⟨i, rfl⟩ := List.get_of_mem h
  exact ⟨i, List.mem_singleton_self _⟩

end Table

namespace Predicate

variable {ν : Type} [DecidableEq ν] [ColumnName ν] {t : Table ν} {p : Predicate} {marks : List Bool}

/-! ## Chosen rows -/

theorem Evaluable.rowsAt (h : p.Evaluable t) (positions : List (Fin t.size)) :
    p.Evaluable (t.rowsAt positions) :=
  h.of_subset (Table.headings_rowsAt positions) fun _ => Table.mem_rows_of_rowsAt

theorem mask_rowsAt_of_evaluable (h : p.Evaluable t) (positions : List (Fin t.size)) :
    p.mask (t.rowsAt positions) = .ok (positions.map fun i => p.trueAt t (t.rowAt i)) := by
  rw [mask_eq_of_evaluable (h.rowsAt positions), Table.rows_rowsAt, List.map_map]
  exact congrArg _ (List.map_congr_left fun i _ =>
    trueAt_congr (Table.headings_rowsAt positions) p (t.rowAt i))

/-- A mask has a mark for each position, which tells whether the predicate is true on the row
there. -/
theorem exists_get_eq_trueAt (h : p.mask t = .ok marks) :
    ∃ hsize : marks.length = t.size, ∀ i : Fin t.size,
      marks.get (i.cast hsize.symm) = p.trueAt t (t.rowAt i) := by
  obtain rfl : t.rows.map (p.trueAt t) = marks :=
    Except.ok.inj ((mask_eq_of_evaluable (evaluable_of_mask h)).symm.trans h)
  exact ⟨List.length_map .., fun i => List.getElem_map ..⟩

/-- Where a predicate can be evaluated over a table it can be over any rows of it, in any order and
with any row left out or repeated, and the mask of these rows is the mask of the table read at their
positions. -/
theorem mask_rowsAt (h : p.mask t = .ok marks) (positions : List (Fin t.size)) :
    ∃ hsize : marks.length = t.size,
      p.mask (t.rowsAt positions) =
        .ok (positions.map fun i => marks.get (i.cast hsize.symm)) := by
  obtain ⟨hsize, hmarks⟩ := exists_get_eq_trueAt h
  refine ⟨hsize, ?_⟩
  rw [mask_rowsAt_of_evaluable (evaluable_of_mask h)]
  exact congrArg _ (List.map_congr_left fun i _ => (hmarks i).symm)

/-- The ages and memberships of three persons, in columns that may hold anything. -/
def membersTable : Table String where
  headings := [⟨"age", .mixed⟩, ⟨"member", .mixed⟩]
  rows := [[.int 31, .bool true], [.null, .bool true], [.int 17, .null]]
  rectangular := by simp

theorem mask_rowsAt_membersTable :
    (conj (compare .ge (column "age") (constant (.int 18))) (column "member")).mask membersTable =
        .ok [true, false, false] ∧
      (conj (compare .ge (column "age") (constant (.int 18))) (column "member")).mask
        (membersTable.rowsAt [⟨2, by decide⟩, ⟨0, by decide⟩, ⟨0, by decide⟩]) =
        .ok [false, true, true] := by
  have hmask : (conj (compare .ge (column "age") (constant (.int 18))) (column "member")).mask
      membersTable = .ok [true, false, false] := by decide +kernel
  obtain ⟨_, hrows⟩ := mask_rowsAt hmask [⟨2, by decide⟩, ⟨0, by decide⟩, ⟨0, by decide⟩]
  exact ⟨hmask, hrows⟩

/-! ## Rows by themselves -/

/-- An operand stands for truth values when it does on every row by itself. -/
theorem isBoolean_of_rows (h : ∀ i, p.IsBoolean (t.rowsAt [i])) : p.IsBoolean t := by
  by_cases hkind : p.storage t = .bool
  · exact .inl hkind
  · refine .inr fun row hrow => ?_
    obtain ⟨i, hi⟩ := Table.exists_mem_rowsAt_singleton hrow
    rcases h i with hstored | hvalues
    · exact absurd ((storage_congr (Table.headings_rowsAt [i]) p).symm.trans hstored) hkind
    · exact valueAt_congr (Table.headings_rowsAt [i]) p row ▸ hvalues row hi

/-- A predicate can be evaluated over a table exactly if it can be over its headings alone and over
each of its rows by itself. -/
theorem evaluable_iff_rows :
    p.Evaluable t ↔ p.Evaluable t.empty ∧ ∀ i, p.Evaluable (t.rowsAt [i]) := by
  refine ⟨fun h => ⟨h.rowsAt [], fun i => h.rowsAt [i]⟩, fun ⟨hempty, hrows⟩ => ?_⟩
  refine ⟨⟨hempty.columns, fun op left right hmem hordered row hrow => ?_,
    fun q hq operand hoperand => ?_⟩, isBoolean_of_rows fun i => (hrows i).boolean⟩
  · obtain ⟨i, hi⟩ := Table.exists_mem_rowsAt_singleton hrow
    have hmixes := (hrows i).ordered op left right hmem hordered row hi
    rwa [valueAt_congr (Table.headings_rowsAt [i]), valueAt_congr (Table.headings_rowsAt [i])]
      at hmixes
  · exact isBoolean_of_rows fun i => (hrows i).connected q hq operand hoperand

/-- A list of marks is the mask of a table exactly if there is a mask without rows and the mask of
each row by itself is its mark. -/
theorem mask_eq_ok_iff_rows :
    p.mask t = .ok marks ↔ p.mask t.empty = .ok [] ∧ ∃ hsize : marks.length = t.size,
      ∀ i : Fin t.size, p.mask (t.rowsAt [i]) = .ok [marks.get (i.cast hsize.symm)] := by
  constructor
  · intro h
    have hevaluable := evaluable_of_mask h
    obtain ⟨hsize, hmarks⟩ := exists_get_eq_trueAt h
    refine ⟨mask_rowsAt_of_evaluable hevaluable [], hsize, fun i => ?_⟩
    rw [mask_rowsAt_of_evaluable hevaluable, hmarks]
    rfl
  · rintro ⟨hempty, hsize, hrows⟩
    have hevaluable : p.Evaluable t :=
      evaluable_iff_rows.2 ⟨evaluable_of_mask hempty, fun i => evaluable_of_mask (hrows i)⟩
    rw [mask_eq_of_evaluable hevaluable]
    refine congrArg _ (List.ext_getElem ((List.length_map ..).trans hsize.symm) fun i hi hi' => ?_)
    have hrow := (mask_rowsAt_of_evaluable hevaluable [⟨i, hsize ▸ hi'⟩]).symm.trans (hrows _)
    rw [List.getElem_map]
    exact List.head_eq_of_cons_eq (Except.ok.inj hrow)

end Predicate

end GraphMotif
