import GraphMotif.Proofs.Graph.Parts
import GraphMotif.Proofs.Plan.Links
import Mathlib.Data.Bool.AllAny

/-!
# Frames over fewer elements

A graph may be narrowed to fewer elements of one kind. The frame of an outline over the narrowed
graph is then the frame over the whole graph, cut down to the rows whose parts of that kind are
left: scans lose rows, and selecting rows commutes with joins, filters and anti-joins. Negated
clauses look at all edges, so with anti-joins only such edges may be left out as none of them
forbids.
-/

namespace GraphMotif

namespace Graph

/-- A graph has, of the elements of one kind, those whose rows pass a test, and all other
elements. -/
structure Narrows (g' g : Graph) (kind : Element) (keep : Row → Bool) : Prop where
  same : ∀ kind' ≠ kind, g'.relations.table kind' = g.relations.table kind'
  fewer : g'.relations.table kind = (g.relations.table kind).filterRows keep

/-- Whether the parts of a row that belong to bindings of a kind pass a test. -/
def partsPass (g : Graph) (kind : Element) (keep : Row → Bool) (bs : List Binding) (f : Frame)
    (row : Row) : Bool :=
  bs.all fun b => b.kind != kind || keep (g.part f row b)

/-- The edges that the anti-joins of an outline forbid pass a test, if it is one of edges. -/
def ForbidsPassing (g : Graph) (kind : Element) (keep : Row → Bool) : Outline → Prop
  | .scan _ => True
  | .join o .. | .filter o _ => g.ForbidsPassing kind keep o
  | .antiJoin o tag ends edge => g.ForbidsPassing kind keep o ∧ (kind = .edge →
      ∀ l ∈ (g.frame o).rows, ∀ r ∈ g.edges.rows, (g.frame o).agree (g.relationFrame .edge tag)
        (ends ++ g.schema.edgeDemand tag edge) l r = true → keep r = true)

variable {g g' : Graph} {kind : Element} {keep : Row → Bool} {o : Outline}

theorem forbidsPassing_of_positive (h : kind = .edge → o.Positive) :
    g.ForbidsPassing kind keep o := by
  induction o with
  | scan b => trivial
  | join o b equalities ih => exact ih h
  | filter o equalities ih => exact ih h
  | antiJoin o tag ends edge ih =>
    exact ⟨ih fun hkind => (h hkind).2.elim, fun hkind => (h hkind).2.elim⟩

namespace Narrows

variable (h : g'.Narrows g kind keep)

include h

theorem names_table (kind' : Element) :
    (g'.relations.table kind').names = (g.relations.table kind').names := by
  by_cases hkind : kind' = kind
  · rw [hkind, h.fewer]
    rfl
  · rw [h.same kind' hkind]

theorem schema_eq : g'.schema = g.schema := by
  have hvertices : g'.vertices.names = g.vertices.names := h.names_table .vertex
  have hedges : g'.edges.names = g.edges.names := h.names_table .edge
  simp only [schema, hvertices, hedges]

theorem resultLabels_eq (p : Pattern) : g'.resultLabels p = g.resultLabels p := by
  rw [resultLabels, resultLabels]
  refine List.flatMap_congr fun s _ => ?_
  cases s with
  | named => rw [shownLabels, shownLabels, h.schema_eq]
  | nameless => rfl

/-- The relation of a binding loses the rows that do not pass. -/
theorem bindingFrame_eq (b : Binding) : g'.bindingFrame b =
    (g.bindingFrame b).filterRows (g.partsPass kind keep [b] (g.bindingFrame b)) := by
  have hpass : ∀ row ∈ (g.bindingFrame b).rows,
      g.partsPass kind keep [b] (g.bindingFrame b) row = (b.kind != kind || keep row) := by
    intro row hrow
    rw [rows_bindingFrame] at hrow
    rw [partsPass, List.all_cons, List.all_nil, Bool.and_true, part_bindingFrame hrow]
  rw [Frame.filterRows_congr hpass]
  by_cases hkind : b.kind = kind
  · have hframe : g'.bindingFrame b = { g.bindingFrame b with rows := (g'.bindingFrame b).rows } := by
      rw [bindingFrame, bindingFrame, relationFrame, relationFrame, h.schema_eq, hkind, h.fewer]
      rfl
    rw [hframe, rows_bindingFrame, hkind, h.fewer]
    show Frame.mk _ _ _ = Frame.mk _ _ _
    refine congrArg _ ?_
    show (g.relations.table kind).rows.filter keep = (g.bindingFrame b).rows.filter _
    rw [rows_bindingFrame, hkind]
    refine List.filter_congr fun row _ => ?_
    rw [bne_self_eq_false, Bool.false_or]
  · rw [Frame.filterRows_of_all fun row _ => ?_]
    · rw [bindingFrame, bindingFrame, relationFrame, relationFrame, h.schema_eq,
        h.same b.kind hkind]
    · rw [bne_iff_ne.2 hkind, Bool.true_or]

/-- Where only edges that pass are forbidden, the forbidden edges are the same. -/
theorem any_agree_eq {tag : String} {equalities : List Equality} {l : Row}
    (hforbids : kind = .edge → ∀ r ∈ g.edges.rows,
      (g.frame o).agree (g.relationFrame .edge tag) equalities l r = true → keep r = true) :
    (g'.relationFrame .edge tag).rows.any
        ((g.frame o).agree (g'.relationFrame .edge tag) equalities l) =
      (g.relationFrame .edge tag).rows.any
        ((g.frame o).agree (g.relationFrame .edge tag) equalities l) := by
  have hright : g'.relationFrame .edge tag = (g.relationFrame .edge tag).filterRows
      (g.partsPass kind keep [.forbidden tag] (g.relationFrame .edge tag)) :=
    h.bindingFrame_eq (.forbidden tag)
  rw [hright, Bool.eq_iff_iff, List.any_eq_true, List.any_eq_true]
  refine exists_congr fun r => and_congr_left fun hagree => ?_
  rw [Frame.filterRows, List.mem_filter]
  refine and_iff_left_of_imp fun hr => ?_
  have hr : r ∈ g.edges.rows := rows_relationFrame .edge tag ▸ hr
  have hpart : g.part (g.relationFrame .edge tag) r (.forbidden tag) = r :=
    part_bindingFrame (b := .forbidden tag) hr
  rw [partsPass, List.all_cons, List.all_nil, Bool.and_true, hpart]
  by_cases hkind : kind = .edge
  · rw [hforbids hkind r hr hagree, Bool.or_true]
  · rw [show (Binding.forbidden tag).kind = Element.edge from rfl, bne_iff_ne.2 (Ne.symm hkind),
      Bool.true_or]

/-- The frame of an outline over the narrowed graph has the rows whose parts are left, if no edge
that is left out is forbidden. -/
theorem frame_eq_of_forbidsPassing (hrelational : (o.plan g.schema).Relational)
    (hforbids : g.ForbidsPassing kind keep o) :
    g'.frame o = (g.frame o).filterRows (g.partsPass kind keep o.bindings (g.frame o)) := by
  induction o with
  | scan b => exact h.bindingFrame_eq b
  | join o b equalities ih =>
    show (g'.frame o).join (g'.bindingFrame b) equalities = _
    rw [ih hrelational.1 hforbids, h.bindingFrame_eq b]
    refine Frame.join_filterRows fun l hl r hr => ?_
    rw [rows_bindingFrame] at hr
    simp only [partsPass, Outline.bindings, List.all_append, List.all_cons, List.all_nil,
      Bool.and_true, part_join_right hrelational hl hr, part_bindingFrame hr]
    refine congrArg (fun pass => pass && _) (all_congr_of_mem fun b' hb' => ?_)
    rw [part_join_left hrelational hb' hl]
  | filter o equalities ih =>
    show (g'.frame o).filter equalities = _
    rw [ih hrelational hforbids, Frame.filter_filterRows]
    rfl
  | antiJoin o tag ends edge ih =>
    have hanti : (g.frame o).antiJoin (g'.relationFrame .edge tag)
        (ends ++ g.schema.edgeDemand tag edge) = (g.frame o).antiJoin (g.relationFrame .edge tag)
          (ends ++ g.schema.edgeDemand tag edge) := by
      show Frame.mk _ _ _ = Frame.mk _ _ _
      refine congrArg _ (List.filter_congr fun l hl => ?_)
      rw [h.any_agree_eq fun hkind r hr => hforbids.2 hkind l hl r hr]
    show (g'.frame o).antiJoin (g'.relationFrame .edge tag)
      (ends ++ g'.schema.edgeDemand tag edge) = _
    rw [ih hrelational.1 hforbids.1, h.schema_eq, Frame.antiJoin_filterRows, hanti]
    rfl

/-- Without anti-joins, the frame of an outline has the rows whose parts are left. -/
theorem frame_eq (hrelational : (o.plan g.schema).Relational)
    (hpositive : kind = .edge → o.Positive) :
    g'.frame o = (g.frame o).filterRows (g.partsPass kind keep o.bindings (g.frame o)) :=
  h.frame_eq_of_forbidsPassing hrelational (forbidsPassing_of_positive hpositive)

end Narrows

end Graph

end GraphMotif
