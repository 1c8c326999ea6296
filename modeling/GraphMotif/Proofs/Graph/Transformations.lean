import GraphMotif.Graph.Cleanup
import GraphMotif.Predicate.Parse
import GraphMotif.Proofs.Graph.FilterLaws
import Mathlib.Data.List.Basic

/-!
# Runs of transformations

A transformation of a graph marks elements of one kind, keeps the marked rows and makes a graph of
the two relations anew. Their columns were accepted before and the identities are among those that
were, so the new relations are never refused. What one transformation keeps, any number of them
keep: the columns, how they are stored, and the order of the rows that are left.
-/

namespace GraphMotif

namespace Table

/-- A table as a caller hands it in, its names being texts. -/
def handedIn (t : Table String) : Table Value where
  headings := t.headings.map fun heading => { name := .text heading.name, kind := heading.kind }
  rows := t.rows
  rectangular row hrow := by
    rw [List.length_map]
    exact t.rectangular row hrow

theorem eq_of_headings_rows {ν : Type} {t t' : Table ν} (hheadings : t.headings = t'.headings)
    (hrows : t.rows = t'.rows) : t = t' := by
  cases t
  cases t'
  cases hheadings
  cases hrows
  rfl

/-- The cells of a row at all positions are the row. -/
theorem map_cell_zipIdx {α : Type} {xs : List α} {row : Row} (h : row.length = xs.length) :
    xs.zipIdx.map (fun x => row.cell x.2) = row := by
  refine List.ext_getElem ?_ fun i hi hi' => ?_
  · rw [List.length_map, List.length_zipIdx, h]
  · rw [List.getElem_map, List.getElem_zipIdx, Row.cell, List.getD_eq_getElem?_getD, Nat.zero_add,
      List.getElem?_eq_getElem hi', Option.getD_some]

theorem names_handedIn (t : Table String) : t.handedIn.names = t.names.map Value.text := by
  rw [names, names, handedIn, List.map_map, List.map_map]
  rfl

/-- All columns of a table that is handed in have texts as names. -/
theorem textColumns_handedIn (t : Table String) : t.handedIn.textColumns = t := by
  have hpicks : t.handedIn.textColumns =
      t.handedIn.pick (t.headings.zipIdx.map fun x => (x.1.name, x.2)) := by
    refine congrArg t.handedIn.pick ?_
    rw [handedIn, List.zipIdx_map, List.filterMap_map, ← List.filterMap_eq_map]
    rfl
  refine hpicks.trans (eq_of_headings_rows ?_ ?_)
  · show List.map _ (List.map _ _) = _
    rw [List.map_map]
    refine List.ext_getElem (by rw [List.length_map, List.length_zipIdx]) fun i hi hi' => ?_
    rw [List.getElem_map, List.getElem_zipIdx, Nat.zero_add]
    simp only [Function.comp_apply, columnAt, handedIn, List.getElem?_map,
      List.getElem?_eq_getElem hi', Option.map_some, Option.getD_some]
  · show List.map _ t.rows = _
    refine (List.map_congr_left fun row hrow => ?_).trans (List.map_id _)
    rw [List.map_map]
    exact map_cell_zipIdx (t.rectangular row hrow)

end Table

/-- A list of texts has nothing in it that is no text. -/
theorem Value.filter_alike_texts (names : List String) :
    (alike (names.map text)).filter (fun name => !name.isText) = [] := by
  cases names with
  | nil => rfl
  | cons name names =>
    show ((name :: names).map text).filter _ = []
    rw [List.filter_eq_nil_iff, List.forall_mem_map]
    exact fun _ _ => Bool.false_ne_true

/-! ## Making graphs anew -/

namespace Graph

/-- A table with distinct columns, among them the reserved ones, is accepted. -/
theorem relation_handedIn (kind : Element) {required : List String} {t : Table String}
    (hnodup : t.names.Nodup) (hmem : ∀ column ∈ required, column ∈ t.names) :
    relation kind required (.table t.handedIn) = .ok ⟨t, hnodup, hmem⟩ := by
  have hfind : required.find? (fun column => !t.names.contains column) = none := by
    refine List.find?_eq_none.2 fun column hcolumn => ?_
    rw [List.contains_iff_mem.2 (hmem column hcolumn)]
    exact Bool.false_ne_true
  simp only [relation, Table.names_handedIn, Value.filter_alike_texts, Table.textColumns_handedIn, dif_pos hnodup]
  split
  · next h => exact absurd h (by simp)
  · split
    · next column h =>
      rw [Table.textColumns_handedIn] at h
      cases hfind.symm.trans h
    · rfl

/-- The tables of a graph are accepted again. -/
theorem ofTables_handedIn (g : Graph) :
    ofTables (.table g.vertices.handedIn) (.table g.edges.handedIn) = .ok g := by
  have hid : ∀ column ∈ [idColumn], column ∈ g.vertices.names :=
    List.forall_mem_singleton.2 g.id_mem
  have hends : ∀ column ∈ [srcColumn, dstColumn], column ∈ g.edges.names := fun _ => g.side_mem
  rw [ofTables, relation_handedIn .vertex g.nodup_vertices hid,
    relation_handedIn .edge g.nodup_edges hends]
  simp only [bind, Except.bind, dif_pos g.id_not_null, dif_pos g.nodup_id]
  rfl

/-- The graph with the marked elements of a kind. -/
def keepElements (g : Graph) : Element → List Bool → Graph
  | .vertex => g.keepVertices
  | .edge => g.keepEdges

/-- Makes a graph anew of the marked rows of one relation and of the other relation. -/
def remake (g : Graph) (kind : Element) (marks : List Bool) : Except GraphError Graph :=
  match kind with
  | .vertex => ofTables (.table (g.vertices.keep marks).handedIn) (.table g.edges.handedIn)
  | .edge => ofTables (.table g.vertices.handedIn) (.table (g.edges.keep marks).handedIn)

/-- Marked rows of a graph are never refused. -/
theorem remake_eq (g : Graph) (kind : Element) (marks : List Bool) :
    g.remake kind marks = .ok (g.keepElements kind marks) := by
  cases kind with
  | vertex => exact ofTables_handedIn (g.keepVertices marks)
  | edge => exact ofTables_handedIn (g.keepEdges marks)

end Graph

/-! ## Transformations -/

/-- A transformation of graphs: a filter of the elements of one kind by whatever is handed in as a
predicate, or one of the two clean-ups. -/
inductive Transformation where
  | filter (kind : Element) (source : PredicateSource)
  | dropIsolatedVertices
  | dropDanglingEdges
  deriving DecidableEq

/-- Why a transformation fails. -/
inductive TransformationError where
  | predicate (e : PredicateError)
  | graph (e : GraphError)
  deriving DecidableEq

namespace Transformation

/-- The kind of the elements that are selected. -/
def kind : Transformation → Element
  | filter kind _ => kind
  | dropIsolatedVertices => .vertex
  | dropDanglingEdges => .edge

/-- Marks the elements that are kept. -/
def marks (g : Graph) : Transformation → Except PredicateError (List Bool)
  | filter kind source => do (← source.predicate).mask (g.relations.table kind)
  | dropIsolatedVertices => .ok (g.idCells.occursIn (g.srcCells.append g.dstCells))
  | dropDanglingEdges =>
    .ok (List.zipWith (· && ·) (g.srcCells.occursIn g.idCells) (g.dstCells.occursIn g.idCells))

/-- The transformed graph, taken from the filters and clean-ups. -/
def apply (g : Graph) : Transformation → Except PredicateError Graph
  | filter kind source => do g.filterElements kind (← source.predicate)
  | dropIsolatedVertices => .ok g.dropIsolatedVertices
  | dropDanglingEdges => .ok g.dropDanglingEdges

/-- The transformed graph, its relations being checked as those of any new graph are. -/
def perform (g : Graph) (t : Transformation) : Except TransformationError Graph := do
  let marks ← (t.marks g).mapError .predicate
  (g.remake t.kind marks).mapError .graph

theorem apply_eq (g : Graph) (t : Transformation) :
    t.apply g = (t.marks g).map (g.keepElements t.kind) := by
  cases t with
  | filter kind source =>
    rw [apply, marks]
    cases source.predicate with
    | error e => rfl
    | ok p => cases kind <;> rfl
  | dropIsolatedVertices => rfl
  | dropDanglingEdges => rfl

/-- The check of the relations never fails. -/
theorem perform_eq (g : Graph) (t : Transformation) :
    t.perform g = (t.apply g).mapError .predicate := by
  rw [perform, apply_eq]
  cases t.marks g with
  | error e => rfl
  | ok marks =>
    show (g.remake t.kind marks).mapError _ = _
    rw [g.remake_eq]
    rfl

end Transformation

namespace Graph

/-- The graph after a transformation; one that fails leaves it as it is. -/
def advance (g : Graph) (t : Transformation) : Graph := (t.perform g).toOption.getD g

/-- The graph after transformations one after the other. -/
def advanceAll (g : Graph) (ts : List Transformation) : Graph := ts.foldl advance g

/-- A graph has the columns of another one, and of its rows some, in the same order. -/
def Within (h g : Graph) : Prop :=
  ∀ kind, (h.relations.table kind).headings = (g.relations.table kind).headings ∧
    (h.relations.table kind).rows.Sublist (g.relations.table kind).rows

variable {g h h' : Graph}

theorem Within.refl (g : Graph) : g.Within g := fun _ => ⟨rfl, .refl _⟩

theorem Within.trans (hh : h'.Within h) (hg : h.Within g) : h'.Within g := fun kind =>
  ⟨(hh kind).1.trans (hg kind).1, (hh kind).2.trans (hg kind).2⟩

theorem table_keepElements_of_ne (g : Graph) {kind kind' : Element} (hne : kind' ≠ kind)
    (marks : List Bool) :
    (g.keepElements kind marks).relations.table kind' = g.relations.table kind' := by
  cases kind <;> cases kind'
  · exact absurd rfl hne
  · rfl
  · rfl
  · exact absurd rfl hne

theorem within_keepElements (g : Graph) (kind : Element) (marks : List Bool) :
    (g.keepElements kind marks).Within g := by
  intro kind'
  by_cases hkind : kind' = kind
  · subst hkind
    cases kind' with
    | vertex => exact ⟨rfl, Table.marked_sublist g.vertices.rows marks⟩
    | edge => exact ⟨rfl, Table.marked_sublist g.edges.rows marks⟩
  · rw [g.table_keepElements_of_ne hkind]
    exact ⟨rfl, .refl _⟩

/-- A transformation succeeds and keeps marked elements of its kind, or fails for its predicate and
leaves the graph as it is. -/
theorem advance_cases (g : Graph) (t : Transformation) :
    (∃ marks, t.apply g = .ok (g.keepElements t.kind marks) ∧
        t.perform g = .ok (g.keepElements t.kind marks) ∧
        g.advance t = g.keepElements t.kind marks) ∨
      ∃ e, t.apply g = .error e ∧ t.perform g = .error (.predicate e) ∧ g.advance t = g := by
  have hperform := t.perform_eq g
  rw [advance, hperform, t.apply_eq]
  cases t.marks g with
  | ok marks => exact .inl ⟨marks, rfl, rfl, rfl⟩
  | error e => exact .inr ⟨e, rfl, rfl, rfl⟩

theorem within_advance (g : Graph) (t : Transformation) : (g.advance t).Within g := by
  rcases g.advance_cases t with ⟨marks, -, -, heq⟩ | ⟨_, -, -, heq⟩
  · rw [heq]
    exact g.within_keepElements t.kind marks
  · rw [heq]
    exact .refl g

/-- Elements of the other kind stay. -/
theorem table_advance_of_ne (g : Graph) {t : Transformation} {kind : Element}
    (hne : kind ≠ t.kind) : (g.advance t).relations.table kind = g.relations.table kind := by
  rcases g.advance_cases t with ⟨marks, -, -, heq⟩ | ⟨_, -, -, heq⟩
  · rw [heq, g.table_keepElements_of_ne hne]
  · rw [heq]

theorem within_advanceAll (g : Graph) (ts : List Transformation) : (g.advanceAll ts).Within g := by
  induction ts generalizing g with
  | nil => exact .refl g
  | cons t ts ih => exact (ih (g.advance t)).trans (g.within_advance t)

/-- No two vertices have the same identity. -/
theorem pairwise_ids (g : Graph) :
    (g.vertices.cells idColumn).Pairwise fun id id' => id.same id' = false := by
  refine (List.pairwise_map.1 g.nodup_id).imp fun hne => ?_
  rw [Value.same, beq_eq_false_iff_ne.2 hne, Bool.and_false]

end Graph

end GraphMotif
