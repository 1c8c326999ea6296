import GraphMotif.Proofs.Plan.Evaluation
import GraphMotif.Proofs.Plan.Frames

/-!
# Frames cut down to some columns

A frame may be cut down to some of its columns. Joining, filtering and anti-joining cut frames on
equalities between the columns that are left gives the cut frame of the join, the filter and the
anti-join.
-/

namespace GraphMotif.Frame

/-- A frame has some of the columns of another one, stored alike, and the cells of its rows in
them. -/
structure Cut (f₀ f : Frame) : Prop where
  names : ∀ name ∈ f₀.names, name ∈ f.names
  kind : ∀ name ∈ f₀.names, f₀.kind name = f.kind name
  rows : f₀.rows = f.rows.map fun row => f₀.names.map (f.cell row)

namespace Cut

variable {f₀ f left₀ left right₀ right : Frame} {equalities equalities₀ : List Equality}
  {row l r : Row} {name : String}

/-- The cells of a cut row. -/
theorem cell_eq (hname : name ∈ f₀.names) (row : Row) :
    f₀.cell (f₀.names.map (f.cell row)) name = f.cell row name := Row.cell_map_idxOf hname _

theorem kind_meeting (hl : left₀.Cut left) (hr : right₀.Cut right)
    (hequalities : Plan.Grounded equalities left₀.names right₀.names) (hname : name ∈ left₀.names) :
    (left₀.meeting right₀ equalities).kind name = (left.meeting right equalities).kind name := by
  simp only [meeting]
  split
  · next e hfind =>
    have he := mem_of_mem_keyEqualities (List.mem_of_find?_eq_some hfind)
    rw [hl.kind name hname, hr.kind e.right (hequalities e he).2]
  · exact hl.kind name hname

/-- Cut rows agree as the rows do. -/
theorem agree_eq (hl : left₀.Cut left) (hr : right₀.Cut right)
    (hequalities : Plan.Grounded equalities left₀.names right₀.names) (l r : Row) :
    left₀.agree right₀ equalities (left₀.names.map (left.cell l)) (right₀.names.map (right.cell r)) =
      left.agree right equalities l r := by
  refine all_congr_of_mem fun e he => ?_
  obtain ⟨hleft, hright⟩ := hequalities e he
  have hcell : (left₀.meeting right₀ equalities).cell (left₀.names.map (left.cell l)) e.left =
      left.cell l e.left := cell_eq hleft l
  unfold holds
  rw [hcell, cell_eq hright, kind_meeting hl hr hequalities hleft, hr.kind e.right hright]
  rfl

/-- Cut rows have partners as the rows do. -/
theorem any_agree_eq (hl : left₀.Cut left) (hr : right₀.Cut right)
    (hequalities : Plan.Grounded equalities left₀.names right₀.names) (l : Row) :
    right₀.rows.any (left₀.agree right₀ equalities (left₀.names.map (left.cell l))) =
      right.rows.any (left.agree right equalities l) := by
  rw [hr.rows, List.any_map]
  exact any_congr_of_mem fun r _ => agree_eq hl hr hequalities l r

/-- A join of cut frames on columns that are left. -/
theorem join (hl : left₀.Cut left) (hr : right₀.Cut right)
    (hequalities : Plan.Grounded equalities left₀.names right₀.names)
    (hlength : ∀ l ∈ left.rows, l.length = left.names.length)
    (hdisjoint : ∀ name ∈ right.names, name ∉ left.names) :
    (left₀.join right₀ equalities).Cut (left.join right equalities) where
  names name hname := by
    rcases List.mem_append.1 hname with hname | hname
    · exact List.mem_append_left _ (hl.names name hname)
    · exact List.mem_append_right _ (hr.names name hname)
  kind name hname := by
    show (if name ∈ left₀.names then _ else _) = if name ∈ left.names then _ else _
    by_cases hmem : name ∈ left₀.names
    · rw [if_pos hmem, if_pos (hl.names name hmem)]
      exact kind_meeting hl hr hequalities hmem
    · have hright := (List.mem_append.1 hname).resolve_left hmem
      rw [if_neg hmem, if_neg (hdisjoint name (hr.names name hright))]
      exact hr.kind name hright
  rows := by
    show left₀.rows.flatMap _ = (left.rows.flatMap _).map _
    rw [hl.rows, List.flatMap_map, List.map_flatMap]
    refine List.flatMap_congr fun l hlmem => ?_
    rw [hr.rows, List.filter_map, List.map_map, List.map_map]
    have hagree : ((left₀.agree right₀ equalities (left₀.names.map (left.cell l))) ∘
        fun r => right₀.names.map (right.cell r)) = left.agree right equalities l :=
      funext fun r => agree_eq hl hr hequalities l r
    rw [hagree]
    refine List.map_congr_left fun r _ => ?_
    -- the cells of the left columns are in the left row, all others in the right one
    show left₀.names.map _ ++ right₀.names.map _ = (left₀.names ++ right₀.names).map _
    rw [List.map_append]
    refine congrArg₂ _ (List.map_congr_left fun name hname => ?_)
      (List.map_congr_left fun name hname => ?_)
    · exact (cell_join_left (hl.names name hname) (hlength l hlmem)).symm
    · exact (cell_join_right (hdisjoint name (hr.names name hname)) (hlength l hlmem)).symm

/-- Rows selected alike. -/
theorem filterRows (h : f₀.Cut f) {p₀ p : Row → Bool}
    (hrows : ∀ row ∈ f.rows, p₀ (f₀.names.map (f.cell row)) = p row) :
    (f₀.filterRows p₀).Cut (f.filterRows p) where
  names := h.names
  kind := h.kind
  rows := by
    show f₀.rows.filter p₀ = (f.rows.filter p).map _
    rw [h.rows, List.filter_map]
    exact congrArg _ (List.filter_congr hrows)

/-- A filter on columns that are left. -/
theorem filter (h : f₀.Cut f) (hequalities : Plan.Grounded equalities f₀.names f₀.names) :
    (f₀.filter equalities).Cut (f.filter equalities) := by
  refine h.filterRows fun row _ => all_congr_of_mem fun e he => ?_
  obtain ⟨hleft, hright⟩ := hequalities e he
  unfold holds
  rw [cell_eq hleft, cell_eq hright, h.kind e.left hleft, h.kind e.right hright]

/-- An anti-join, where the same rows have partners. -/
theorem antiJoin (h : left₀.Cut left)
    (hpartners : ∀ l ∈ left.rows,
      right₀.rows.any (left₀.agree right₀ equalities₀ (left₀.names.map (left.cell l))) =
        right.rows.any (left.agree right equalities l)) :
    (left₀.antiJoin right₀ equalities₀).Cut (left.antiJoin right equalities) :=
  h.filterRows fun l hl => congrArg (fun b => !b) (hpartners l hl)

end Cut

end GraphMotif.Frame
