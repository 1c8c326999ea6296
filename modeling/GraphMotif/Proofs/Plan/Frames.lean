import GraphMotif.Proofs.Plan.Evaluation
import GraphMotif.Proofs.Table.Select
import GraphMotif.Proofs.Value.Rounding

/-!
# Rows of frames

The cells of a joined row are those of its two rows. Selecting rows of a frame commutes with joins,
filters and anti-joins.
-/

namespace GraphMotif

namespace Frame

variable {left right : Frame} {l r row : Row} {name : String} {equalities : List Equality}

theorem cell_join_left (hname : name ∈ left.names) (hlength : l.length = left.names.length) :
    (left.join right equalities).cell (l ++ r) name = left.cell l name := by
  show Row.cell (l ++ r) ((left.names ++ right.names).idxOf name) = _
  rw [List.idxOf_append_of_mem hname,
    Row.cell_append_left (hlength ▸ List.idxOf_lt_length_of_mem hname)]
  rfl

theorem cell_join_right (hname : name ∉ left.names) (hlength : l.length = left.names.length) :
    (left.join right equalities).cell (l ++ r) name = right.cell r name := by
  show Row.cell (l ++ r) ((left.names ++ right.names).idxOf name) = _
  rw [List.idxOf_append_of_notMem hname, ← hlength, Row.cell_append_right]
  rfl

theorem mem_rows_join : row ∈ (left.join right equalities).rows ↔ ∃ l ∈ left.rows, ∃ r ∈ right.rows,
    left.agree right equalities l r = true ∧ l ++ r = row := by
  simp only [join, List.mem_flatMap, List.mem_map, List.mem_filter, and_assoc]

/-- A match leaves a column stored as it is or makes it mixed. -/
theorem kind_meeting (left right : Frame) (equalities : List Equality) (name : String) :
    (left.meeting right equalities).kind name = left.kind name ∨
      (left.meeting right equalities).kind name = .mixed := by
  simp only [meeting]
  split
  · rw [ColumnKind.matched]
    split
    · exact .inl rfl
    · exact .inr rfl
  · exact .inl rfl

/-- More equalities, on other left columns, do not change how a column is stored. -/
theorem kind_meeting_append {others : List Equality} (hname : ∀ e ∈ others, e.left ≠ name) :
    (left.meeting right (equalities ++ others)).kind name =
      (left.meeting right equalities).kind name := by
  obtain ⟨rest, hrest, heq⟩ := exists_keyEqualities_append equalities others
  have hnone : rest.find? (·.left = name) = none :=
    List.find?_eq_none.2 fun e he heq => hname e (hrest e he) (of_decide_eq_true heq)
  simp only [meeting, heq, List.find?_append, hnone, Option.or_none]

/-- Equalities on other left columns are checked apart. -/
theorem agree_append {others : List Equality}
    (hleft : ∀ e ∈ equalities, ∀ e' ∈ others, e'.left ≠ e.left) :
    left.agree right (equalities ++ others) l r = (left.agree right equalities l r &&
      others.all ((left.meeting right (equalities ++ others)).holds right l r)) := by
  rw [agree, List.all_append]
  refine congrArg (fun b => b && _) (all_congr_of_mem fun e he => ?_)
  unfold holds
  rw [kind_meeting_append (hleft e he)]
  rfl

/-- Rows with the same normal forms in the right columns agree with the same left rows. -/
theorem agree_congr_right {r' : Row}
    (h : ∀ e ∈ equalities, (right.cell r e.right).key = (right.cell r' e.right).key) :
    left.agree right equalities l r = left.agree right equalities l r' := by
  refine all_congr_of_mem fun e he => ?_
  simp only [holds, ColumnKind.equal_congr_right _ _ _ (h e he), Value.isNull_congr (h e he)]

end Frame

/-- Rows have as many cells as there are columns. -/
theorem Plan.length_of_mem_rows {r : Relations} {p : Plan} (h : p.Relational) {row : Row}
    (hrow : row ∈ (p.frame r).rows) : row.length = (p.frame r).names.length := by
  induction p generalizing row with
  | empty columns => exact absurd hrow List.not_mem_nil
  | scan element tag columns =>
    obtain ⟨row', -, rfl⟩ := List.mem_map.1 hrow
    show (columns.map _).length = (columns.map _).length
    rw [List.length_map, List.length_map]
  | join left right equalities ihl ihr =>
    obtain ⟨l, hl, r', hr, -, rfl⟩ := Frame.mem_rows_join.1 hrow
    show (l ++ r').length = ((left.frame r).names ++ (right.frame r).names).length
    rw [List.length_append, List.length_append, ihl h.1 hl, ihr h.2.1 hr]
  | antiJoin left right equalities ihl _ => exact ihl h.1 (List.mem_filter.1 hrow).1
  | filter child equalities ih => exact ih h (List.mem_filter.1 hrow).1
  | project child outputs _ => exact h.elim

/-! ## Selecting rows -/

namespace Frame

/-- The rows that pass a test. -/
def filterRows (f : Frame) (p : Row → Bool) : Frame := { f with rows := f.rows.filter p }

variable {left right : Frame} {p q keep : Row → Bool} {equalities : List Equality}

theorem filterRows_congr {f : Frame} (h : ∀ row ∈ f.rows, p row = q row) :
    f.filterRows p = f.filterRows q := by
  unfold filterRows
  rw [List.filter_congr h]

theorem filterRows_of_all {f : Frame} (h : ∀ row ∈ f.rows, p row = true) : f.filterRows p = f := by
  unfold filterRows
  rw [List.filter_eq_self.2 h]

/-- Rows can be selected on both sides of a join instead of after it. -/
theorem join_filterRows
    (h : ∀ l ∈ left.rows, ∀ r ∈ right.rows, keep (l ++ r) = (p l && q r)) :
    (left.filterRows p).join (right.filterRows q) equalities =
      (left.join right equalities).filterRows keep := by
  have hrows : (left.rows.filter p).flatMap (fun l =>
      ((right.rows.filter q).filter (left.agree right equalities l)).map (l ++ ·)) =
        (left.rows.flatMap fun l =>
          (right.rows.filter (left.agree right equalities l)).map (l ++ ·)).filter keep := by
    rw [flatMap_filter, List.filter_flatMap]
    refine List.flatMap_congr fun l hl => ?_
    rw [List.filter_map, List.filter_filter]
    cases hp : p l with
    | false =>
      rw [if_neg Bool.false_ne_true, eq_comm, List.map_eq_nil_iff, List.filter_eq_nil_iff]
      intro r hr
      rw [Function.comp_apply, h l hl r (List.mem_filter.1 hr).1, hp, Bool.false_and]
      exact Bool.false_ne_true
    | true =>
      rw [if_pos rfl, List.filter_filter]
      refine congrArg _ (List.filter_congr fun r hr => ?_)
      rw [Function.comp_apply, h l hl r hr, hp, Bool.true_and, Bool.and_comm]
  show Frame.mk _ _ _ = Frame.mk _ _ _
  exact congrArg _ hrows

theorem filter_filterRows (f : Frame) (p : Row → Bool) (equalities : List Equality) :
    (f.filterRows p).filter equalities = (f.filter equalities).filterRows p := by
  show Frame.mk _ _ _ = Frame.mk _ _ _
  exact congrArg _ (List.filter_comm _ p f.rows)

theorem antiJoin_filterRows (f right : Frame) (p : Row → Bool) (equalities : List Equality) :
    (f.filterRows p).antiJoin right equalities = (f.antiJoin right equalities).filterRows p := by
  show Frame.mk _ _ _ = Frame.mk _ _ _
  exact congrArg _ (List.filter_comm _ p f.rows)

end Frame

end GraphMotif
