import GraphMotif.Graph.Degree
import GraphMotif.Proofs.Graph.Cleanup
import GraphMotif.Proofs.Graph.Erasing
import GraphMotif.Proofs.Value.Repetition
import Mathlib.Algebra.GroupWithZero.Nat

/-!
# Degrees, clean-ups and matches

Whether a vertex is at an end of an edge is decided in three ways: a degree is looked up among the
counted values of an end, a clean-up looks for the identity among both ends pooled in one column,
and a match joins the identities with the end. They agree unless rounding interferes: of several
ends that are rounded to one identity, a degree counts the least frequent only, and pooling may
round other ends than a match does.
-/

namespace GraphMotif

/-! ## Counted values -/

namespace Column

variable {c ids ends : Column} {p : Value → Bool}

theorem mem_valueCounts {v : Value} {n : Nat} :
    (v, n) ∈ c.valueCounts ↔
      v ∈ Value.distinct c.cells ∧ v.isNull = false ∧ n = c.cells.countP v.same := by
  rw [valueCounts, List.mem_map]
  constructor
  · rintro ⟨w, hw, heq⟩
    obtain ⟨rfl, rfl⟩ := Prod.mk.inj heq
    obtain ⟨hw, hnull⟩ := List.mem_filter.1 hw
    rw [Bool.not_eq_true'] at hnull
    exact ⟨hw, hnull, List.countP_eq_length_filter.symm⟩
  · rintro ⟨hv, hnull, rfl⟩
    rw [List.countP_eq_length_filter]
    refine ⟨v, List.mem_filter.2 ⟨hv, ?_⟩, rfl⟩
    rw [hnull, Bool.not_false]

/-- Among the counted values that pass a test, the least frequent one has all the cells that pass
it, as long as these are of one value. -/
theorem min?_valueCounts (hnull : ∀ v, p v = true → v.isNull = false)
    (hcongr : ∀ v w, v.key = w.key → p v = p w)
    (hsingle : ∀ v ∈ c.cells, ∀ w ∈ c.cells, p v = true → p w = true → v.key = w.key) :
    ((c.valueCounts.filter fun (v, _) => p v).map (·.2)).min?.getD 0 = c.cells.countP p := by
  -- every value that passes has all the cells that pass, so it does not matter which one is taken
  have hcount : ∀ n ∈ (c.valueCounts.filter fun (v, _) => p v).map (·.2), n = c.cells.countP p := by
    intro n hn
    obtain ⟨⟨v, n⟩, hmem, rfl⟩ := List.mem_map.1 hn
    obtain ⟨hmem, hv⟩ := List.mem_filter.1 hmem
    obtain ⟨hdistinct, -, rfl⟩ := mem_valueCounts.1 hmem
    have hcell : v ∈ c.cells := Value.mem_of_mem_distinctAfter hdistinct
    refine List.countP_congr fun w hw => ⟨fun hsame => ?_, fun hpass => ?_⟩
    · rw [← hcongr v w (Value.same_iff.1 hsame).2.2]
      exact hv
    · exact Value.same_iff.2 ⟨hnull v hv, hnull w hpass, hsingle v hcell w hw hv hpass⟩
  by_cases hsome : ∃ v ∈ c.cells, p v = true
  · obtain ⟨v, hv, hpass⟩ := hsome
    obtain ⟨w, hw, hsame⟩ := Value.exists_mem_distinct hv (hnull v hpass)
    obtain ⟨-, hwnull, hkey⟩ := Value.same_iff.1 hsame
    have hfound : (w, c.cells.countP w.same) ∈ c.valueCounts.filter fun (v, _) => p v :=
      List.mem_filter.2 ⟨mem_valueCounts.2 ⟨hw, hwnull, rfl⟩, (hcongr v w hkey).symm.trans hpass⟩
    have hmem := List.mem_map_of_mem (f := Prod.snd) hfound
    have hmin : ((c.valueCounts.filter fun (v, _) => p v).map (·.2)).min? =
        some (c.cells.countP p) :=
      List.min?_eq_some_iff.2 ⟨hcount _ hmem ▸ hmem, fun n hn => (hcount n hn).ge⟩
    rw [hmin, Option.getD_some]
  · have hnone : ∀ v ∈ c.cells, ¬p v = true := fun v hv hpass => hsome ⟨v, hv, hpass⟩
    rw [List.countP_eq_zero.2 hnone]
    have hempty : (c.valueCounts.filter fun (v, _) => p v) = [] := by
      refine List.filter_eq_nil_iff.2 fun ⟨v, n⟩ hmem => ?_
      exact hnone v (Value.mem_of_mem_distinctAfter (mem_valueCounts.1 hmem).1)
    rw [hempty]
    rfl

/-- How often an identity occurs among ends, if it is not taken apart from an end that it is equal
to, and equal to ends of one value only. -/
theorem countIn_eq {id : Value}
    (hapart : ids.apart ends = true → ∀ v ∈ ends.cells, ids.kind.equal ends.kind id v = false)
    (hsingle : ∀ v ∈ ends.cells, ∀ w ∈ ends.cells,
      ids.kind.equal ends.kind id v = true → ids.kind.equal ends.kind id w = true → v.key = w.key) :
    ids.countIn ends id = ends.cells.countP (ids.kind.equal ends.kind id) := by
  rw [countIn]
  split
  · next happart =>
    have hnone : ∀ v ∈ ends.cells, ¬ids.kind.equal ends.kind id v = true := fun v hv =>
      Bool.eq_false_iff.1 (hapart happart v hv)
    exact (List.countP_eq_zero.2 hnone).symm
  · refine min?_valueCounts (p := ids.kind.equal ends.kind id) (fun v hv => ?_)
      (fun v w hkey => ColumnKind.equal_congr_right _ _ _ hkey) hsingle
    rw [← ColumnKind.isNull_align ends.kind ids.kind v]
    exact (Value.same_iff.1 hv).2.1

end Column

/-- The rows of a table that is made column by column out of the items of a list. -/
theorem Table.rows_ofColumns_map {ν α : Type} (xs : List α)
    (columns : List (ν × ColumnKind × (α → Value))) (hne : columns ≠ []) :
    (Table.ofColumns (columns.map fun (name, kind, φ) =>
      (name, { kind, cells := xs.map φ }))).rows =
        xs.map fun x => columns.map fun (_, _, φ) => φ x := by
  obtain ⟨first, others, rfl⟩ := List.exists_cons_of_ne_nil hne
  show (List.range (xs.map first.2.2).length).map _ = _
  rw [List.length_map]
  refine List.ext_getElem (by simp) fun i hi hi' => ?_
  rw [List.length_map] at hi'
  rw [List.getElem_map, List.getElem_map, List.getElem_range, List.map_map]
  refine List.map_congr_left fun column _ => ?_
  show (xs.map column.2.2).getD i .null = column.2.2 xs[i]
  rw [List.getD_eq_getElem?_getD, List.getElem?_map, List.getElem?_eq_getElem hi']
  rfl

namespace Graph

variable (g : Graph)

/-- The number of edges at whose end, that a column identifies, a vertex is. -/
def degreeAt (side : String) (vertex : Row) : Nat := g.edges.rows.countP (g.atEnd side vertex)

/-- How often the identity of a vertex is counted among the ends of edges. -/
def countedAt (side : String) (vertex : Row) : Nat :=
  g.idCells.countIn (g.edges.named side) (g.vertices.cellAt vertex idColumn)

/-- The values of an end are counted as they are matched: no truth value is at an end that is a
number or the other way round, and binary64 identities are not equal to several integers that are
rounded. -/
structure CountsEnds (side : String) : Prop where
  apart : g.idCells.apart (g.edges.named side) = true → ∀ vertex ∈ g.vertices.rows,
    ∀ e ∈ g.edges.rows, g.atEnd side vertex e = false
  single : g.vertices.kindAt idColumn = .float → g.edges.kindAt side = .int →
    ∀ vertex ∈ g.vertices.rows, ∀ e ∈ g.edges.rows, ∀ e' ∈ g.edges.rows,
      g.atEnd side vertex e = true → g.atEnd side vertex e' = true →
        (g.edges.cellAt e side).key = (g.edges.cellAt e' side).key

variable {g} {side : String} {vertex e e' : Row}

/-- An identity is equal to ends of one value only. -/
theorem CountsEnds.key_eq (h : g.CountsEnds side) (hvertex : vertex ∈ g.vertices.rows)
    (he : e ∈ g.edges.rows) (he' : e' ∈ g.edges.rows) (hend : g.atEnd side vertex e = true)
    (hend' : g.atEnd side vertex e' = true) :
    (g.edges.cellAt e side).key = (g.edges.cellAt e' side).key := by
  by_cases hkinds : g.edges.kindAt side = .int ∧ g.vertices.kindAt idColumn = .float
  · exact h.single hkinds.2 hkinds.1 vertex hvertex e he e' he' hend hend'
  · -- no end is rounded
    have halign (v : Value) : (g.edges.kindAt side).align (g.vertices.kindAt idColumn) v = v :=
      if_neg hkinds
    unfold atEnd ColumnKind.equal at hend hend'
    rw [halign] at hend hend'
    exact (Value.same_iff.1 hend).2.2.symm.trans (Value.same_iff.1 hend').2.2

/-- The degree of a vertex is the number of edges at whose end it is. -/
theorem CountsEnds.countedAt_eq (h : g.CountsEnds side) (hside : side ∈ [srcColumn, dstColumn])
    (hvertex : vertex ∈ g.vertices.rows) : g.countedAt side vertex = g.degreeAt side vertex := by
  have hids : g.idCells = _ := Table.named_eq g.id_mem
  have hends := Table.named_eq (t := g.edges) (g.side_mem hside)
  rw [countedAt, Column.countIn_eq, hids, hends, List.countP_map]
  · rfl
  · intro happart
    have hnone := h.apart happart vertex hvertex
    rw [hids, hends, List.forall_mem_map]
    exact hnone
  · rw [hids, hends]
    simp only [List.forall_mem_map]
    exact fun e he e' he' hend hend' => h.key_eq hvertex he he' hend hend'

theorem names_degrees : g.degrees.names = [idColumn, "out_degree", "in_degree"] := rfl

/-- The degrees have a row for each vertex. -/
theorem rows_degrees (g : Graph) : g.degrees.rows = g.vertices.rows.map fun vertex =>
    [g.vertices.cellAt vertex idColumn, .int (g.countedAt srcColumn vertex),
      .int (g.countedAt dstColumn vertex)] := by
  have hids : g.idCells = ⟨g.vertices.kindAt idColumn,
    g.vertices.rows.map (g.vertices.cellAt · idColumn)⟩ := Table.named_eq g.id_mem
  have hcounts (ends : Column) : g.idCells.cells.map (fun id => Value.int (g.idCells.countIn ends id)) =
      g.vertices.rows.map fun vertex =>
        Value.int (g.idCells.countIn ends (g.vertices.cellAt vertex idColumn)) := by
    rw [show g.idCells.cells = _ from congrArg Column.cells hids, List.map_map]
    rfl
  have hrows := Table.rows_ofColumns_map g.vertices.rows
    [(idColumn, g.vertices.kindAt idColumn, (g.vertices.cellAt · idColumn)),
      ("out_degree", .int, fun vertex => .int (g.countedAt srcColumn vertex)),
      ("in_degree", .int, fun vertex => .int (g.countedAt dstColumn vertex))] nofun
  simp only [List.map_cons, List.map_nil, ← hids] at hrows
  rw [← hrows]
  simp only [degrees, hcounts]
  rfl

end Graph

/-! ## Matched ends -/

/-- A positive clause of a nameless edge that names one of its ends. -/
structure EdgeClause.EndsAt (clause : EdgeClause) (name side : String) : Prop where
  positive : clause.negated = false
  nameless : clause.edge = none
  ends : clause.namedEnds = [(name, side)]

namespace EdgeClause.EndsAt

variable {clause : EdgeClause} {name side : String}

theorem sites_cases (h : clause.EndsAt name side) :
    Pattern.sites { clauses := [.edge clause] } = [.named .vertex name, .nameless .edge 0] ∨
      Pattern.sites { clauses := [.edge clause] } = [.nameless .edge 0, .named .vertex name] := by
  obtain ⟨src, edge, dst, negated⟩ := clause
  obtain ⟨rfl, rfl, hends⟩ := h
  cases src with
  | none =>
    cases dst with
    | none => exact absurd hends nofun
    | some dst =>
      obtain ⟨rfl, rfl⟩ := Prod.mk.inj (List.cons.inj hends).1
      exact .inr rfl
  | some src =>
    cases dst with
    | none =>
      obtain ⟨rfl, rfl⟩ := Prod.mk.inj (List.cons.inj hends).1
      exact .inl rfl
    | some dst => exact absurd hends nofun

theorem wellBound (h : clause.EndsAt name side) :
    Pattern.WellBound { clauses := [.edge clause] } where
  one_kind name' _ := by
    rintro ⟨c, hc, hname⟩
    obtain rfl := List.mem_singleton.1 hc
    rw [Clause.names, h.nameless] at hname
    exact absurd hname List.not_mem_nil
  bound before c after hclauses hnegated := by
    have hc : c ∈ before ++ c :: after := List.mem_append_right _ List.mem_cons_self
    rw [← hclauses] at hc
    obtain rfl := List.mem_singleton.1 hc
    cases h.positive.symm.trans hnegated
  anchored c hhead := Option.some.inj hhead ▸ h.positive

/-- What is made of the elements of the clause is made of the vertex at the end, if nothing is made
of the edge. -/
theorem flatMap_sites {α : Type} (h : clause.EndsAt name side) {f : Site → List α}
    (hedge : f (.nameless .edge 0) = []) :
    (Pattern.sites { clauses := [.edge clause] }).flatMap f = f (.named .vertex name) := by
  rcases h.sites_cases with hsites | hsites <;> simp [hsites, hedge]

end EdgeClause.EndsAt

namespace Graph

variable {g : Graph} {clause : EdgeClause} {name side : String} {vertex : Row}

/-- A pattern that names one end only has steady keys. -/
theorem steadyKeys_of_endsAt (h : clause.EndsAt name side) :
    g.SteadyKeys { clauses := [.edge clause] } := by
  have hends : Pattern.namedEnds { clauses := [.edge clause] } = [(name, side)] :=
    (List.append_nil _).trans h.ends
  intro name'
  rw [hends]
  by_cases hretypes : g.Retypes side
  · refine .inr fun side' hend vertex _ e _ => ?_
    obtain ⟨-, rfl⟩ := Prod.mk.inj (List.mem_singleton.1 hend)
    exact equal_of_retypes hretypes (.inl rfl) (.inl rfl) _ _
  · refine .inl fun side' hend => ?_
    obtain ⟨-, rfl⟩ := Prod.mk.inj (List.mem_singleton.1 hend)
    exact hretypes

/-- The occurrences of a clause that names one end are the vertices there, one for each edge. -/
theorem occurrences_perm_of_endsAt (h : clause.EndsAt name side) :
    (g.occurrences { clauses := [.edge clause] }).Perm
      (g.vertices.rows.flatMap fun vertex => List.replicate (g.degreeAt side vertex) vertex) := by
  have hsites : (Pattern.sites { clauses := [.edge clause] }).Perm
      [.named .vertex name, .nameless .edge 0] := by
    rcases h.sites_cases with hsites | hsites
    · exact .of_eq hsites
    · exact hsites ▸ .swap ..
  have hassignments : g.assignments [.named .vertex name, .nameless .edge 0] =
      g.vertices.rows.flatMap fun vertex => g.edges.rows.map fun e =>
        Function.update (Function.update (fun _ => []) (.named .vertex name) vertex)
          (.nameless .edge 0) e := by
    simp only [assignments, List.foldl_cons, List.foldl_nil, List.flatMap_cons, List.flatMap_nil,
      List.append_nil, List.flatMap_map]
    rfl
  have hsatisfies (a : Assignment) : g.satisfiesAll [.edge clause] a =
      g.atEnd side (a (.named .vertex name)) (a (.nameless .edge 0)) := by
    simp [satisfiesAll, satisfies, hasEnds, Slot.site, h.positive, h.nameless, h.ends]
  rw [occurrences, if_neg (by simp [Pattern.isEmpty])]
  refine (((g.assignments_perm hsites).filter _).map _).trans (.of_eq ?_)
  rw [hassignments, List.filter_flatMap, List.map_flatMap]
  refine List.flatMap_congr fun vertex _ => ?_
  rw [List.filter_map, List.map_map, degreeAt, List.countP_eq_length_filter, ← List.map_const']
  have hfilter : g.edges.rows.filter (g.satisfiesAll [.edge clause] ∘ fun e =>
      Function.update (Function.update (fun _ => []) (.named .vertex name) vertex)
        (.nameless .edge 0) e) = g.edges.rows.filter (g.atEnd side vertex) := by
    refine List.filter_congr fun e _ => ?_
    rw [Function.comp_apply, hsatisfies, Function.update_self,
      Function.update_of_ne (by simp), Function.update_self]
  rw [hfilter]
  refine List.map_congr_left fun e _ => ?_
  rw [Function.comp_apply, h.flatMap_sites rfl, Site.shownRow, Function.update_of_ne (by simp),
    Function.update_self]

/-- The number of rows of a result that show an identity under a name. -/
def rowsShowing (t : Table Label) (name : String) (id : Value) : Nat :=
  t.rows.countP fun row => (row.cell (t.names.idxOf (.bundled name idColumn))).same id

theorem filter_same_id (hvertex : vertex ∈ g.vertices.rows) :
    (g.vertices.rows.filter fun row =>
      (g.vertices.cellAt row idColumn).same (g.vertices.cellAt vertex idColumn)) = [vertex] := by
  have hsame : ∀ row ∈ g.vertices.rows,
      (g.vertices.cellAt row idColumn).same (g.vertices.cellAt vertex idColumn) = (row == vertex) := by
    intro row hrow
    rw [Bool.eq_iff_iff, beq_iff_eq]
    constructor
    · exact fun h => eq_of_idKey hrow hvertex (Value.same_iff.1 h).2.2
    · rintro rfl
      refine Value.same_self (g.id_not_null _ ?_)
      rw [Table.cells_eq g.id_mem]
      exact List.mem_map_of_mem hrow
  rw [List.filter_congr hsame, List.filter_beq,
    List.count_eq_one_of_mem g.nodup_vertices_rows hvertex]
  rfl

/-- A clause that names one end finds every vertex once for each edge at whose end it is, or the
search stops for keys that cannot be compared. -/
theorem find_of_endsAt (g : Graph) (h : clause.EndsAt name side) :
    (∃ a b, g.find { clauses := [.edge clause] } = .error (.eval (.incomparableKeys a b))) ∨
      ∃ t, g.find { clauses := [.edge clause] } = .ok t ∧ ∀ vertex ∈ g.vertices.rows,
        rowsShowing t name (g.vertices.cellAt vertex idColumn) = g.degreeAt side vertex := by
  rcases g.schema.compilePattern_cases { clauses := [.edge clause] } with
    ⟨-, plan, hplan, -⟩ | ⟨hbound, -⟩
  · obtain ⟨hrelational, hsupply, hcheck, hlabels, hrows⟩ := compile_spec hplan (steadyKeys_of_endsAt h)
    rcases find_eq_resultRows hplan hrelational hsupply hcheck with
      ⟨-, herror⟩ | ⟨-, t, hfind, hnames, htrows⟩
    · exact .inl herror
    refine .inr ⟨t, hfind, fun vertex hvertex => ?_⟩
    have hperm := (hrows.trans (occurrences_perm_of_endsAt h))
    rw [← htrows] at hperm
    have hposition : t.names.idxOf (.bundled name idColumn) = g.vertices.names.idxOf idColumn := by
      rw [hnames, hlabels, resultLabels, h.flatMap_sites rfl]
      exact idxOf_map_of_injective (fun _ _ heq => (Label.bundled.inj heq).2) _ _
    rw [rowsShowing, hposition, hperm.countP_eq, List.countP_eq_length_filter, List.filter_flatMap]
    have hfilter : (g.vertices.rows.flatMap fun row =>
        (List.replicate (g.degreeAt side row) row).filter fun row' =>
          (g.vertices.cellAt row' idColumn).same (g.vertices.cellAt vertex idColumn)) =
        List.replicate (g.degreeAt side vertex) vertex := by
      simp only [List.filter_replicate]
      rw [← flatMap_filter, filter_same_id hvertex, List.flatMap_singleton]
    exact (congrArg List.length hfilter).trans List.length_replicate
  · exact absurd h.wellBound hbound

/-! ## Pooled ends -/

/-- Whether the identity of a vertex is equal to an end of an edge in the column where this end is
pooled with the other one. -/
def pooledAt (g : Graph) (side other : String) (vertex e : Row) : Bool :=
  (g.vertices.kindAt idColumn).equal ((g.edges.kindAt side).pooled (g.edges.kindAt other))
    (g.vertices.cellAt vertex idColumn)
    ((g.edges.kindAt side).align (g.edges.kindAt other) (g.edges.cellAt e side))

/-- Identities are equal to the same ends of edges whether both ends are pooled in one column or
not. -/
def PoolsAlike (g : Graph) : Prop :=
  ∀ side other, (side, other) ∈ [(srcColumn, dstColumn), (dstColumn, srcColumn)] →
    ∀ vertex ∈ g.vertices.rows, ∀ e ∈ g.edges.rows,
      g.pooledAt side other vertex e = g.atEnd side vertex e

theorem touched_eq (g : Graph) (vertex : Row) : g.touched vertex =
    (g.edges.rows.any (g.pooledAt srcColumn dstColumn vertex) ||
      g.edges.rows.any (g.pooledAt dstColumn srcColumn vertex)) := by
  rw [touched, endCells_eq, Value.isIn, List.any_map, List.any_append, List.any_map, List.any_map,
    List.any_map, List.any_map]
  refine congrArg₂ or rfl ?_
  rw [ColumnKind.pooled_comm]
  rfl

/-- Dropping isolated vertices keeps those that have a degree. -/
theorem rows_dropIsolatedVertices (h : g.PoolsAlike) :
    g.dropIsolatedVertices.vertices.rows = g.vertices.rows.filter fun vertex =>
      0 < g.degreeAt srcColumn vertex + g.degreeAt dstColumn vertex := by
  have hfewer : g.dropIsolatedVertices.vertices = g.vertices.filterRows g.touched :=
    (narrows_dropIsolatedVertices g).fewer
  rw [hfewer]
  refine List.filter_congr fun vertex hvertex => ?_
  have hsrc := any_congr_of_mem (h srcColumn dstColumn List.mem_cons_self vertex hvertex)
  have hdst := any_congr_of_mem
    (h dstColumn srcColumn (List.mem_cons_of_mem _ List.mem_cons_self) vertex hvertex)
  rw [touched_eq, hsrc, hdst, Bool.eq_iff_iff, Bool.or_eq_true, decide_eq_true_iff,
    Nat.add_pos_iff_pos_or_pos, degreeAt, degreeAt, List.countP_pos_iff, List.countP_pos_iff,
    List.any_eq_true, List.any_eq_true]

/-! ## Sums of degrees -/

theorem countP_or_of_disjoint {α : Type} {xs : List α} {p q : α → Bool}
    (h : ∀ x ∈ xs, p x = true → q x = false) :
    xs.countP (fun x => p x || q x) = xs.countP p + xs.countP q := by
  induction xs with
  | nil => rfl
  | cons x xs ih =>
    have hx := h x List.mem_cons_self
    rw [List.countP_cons, List.countP_cons, List.countP_cons,
      ih fun y hy => h y (List.mem_cons_of_mem _ hy)]
    cases hp : p x with
    | true =>
      rw [hx hp, Bool.true_or, if_pos rfl, if_neg Bool.false_ne_true]
      omega
    | false =>
      rw [Bool.false_or, if_neg Bool.false_ne_true]
      omega

/-- Where every item of a list is related to one item at most of another, counting from these gives
the number of the items that are related to any. -/
theorem sum_map_countP {α β : Type} {xs : List α} {ys : List β} {r : α → β → Bool} (hxs : xs.Nodup)
    (h : ∀ y ∈ ys, ∀ x ∈ xs, ∀ x' ∈ xs, r x y = true → r x' y = true → x = x') :
    (xs.map fun x => ys.countP (r x)).sum = ys.countP fun y => xs.any (r · y) := by
  induction xs with
  | nil => simp
  | cons x xs ih =>
    obtain ⟨hx, hxs⟩ := List.nodup_cons.1 hxs
    have hdisjoint : ∀ y ∈ ys, r x y = true → xs.any (r · y) = false := by
      intro y hy hxy
      refine Bool.eq_false_iff.2 fun hany => ?_
      obtain ⟨x', hx', hxy'⟩ := List.any_eq_true.1 hany
      have heq := h y hy x List.mem_cons_self x' (List.mem_cons_of_mem _ hx') hxy hxy'
      exact hx (heq ▸ hx')
    rw [List.map_cons, List.sum_cons, ih hxs fun y hy x hx x' hx' =>
      h y hy x (List.mem_cons_of_mem _ hx) x' (List.mem_cons_of_mem _ hx'),
      ← countP_or_of_disjoint hdisjoint]
    rfl

/-- The degrees at one end sum up to the number of edges that have a vertex there. -/
theorem sum_degreeAt (h : g.Identifies side) :
    (g.vertices.rows.map (g.degreeAt side)).sum = g.edges.rows.countP (g.hasVertexAt side) :=
  sum_map_countP g.nodup_vertices_rows fun _ he _ hvertex _ hvertex' hend hend' =>
    h.eq_of_atEnd he hvertex hvertex' hend hend'

/-! ## Identities and ends by value -/

/-- No integer among the identities and the ends of edges is changed by being rounded. -/
structure KeepsIntegers (g : Graph) : Prop where
  id : ∀ vertex ∈ g.vertices.rows,
    (g.vertices.cellAt vertex idColumn).toFloat.key = (g.vertices.cellAt vertex idColumn).key
  side : ∀ side ∈ [srcColumn, dstColumn], ∀ e ∈ g.edges.rows,
    (g.edges.cellAt e side).toFloat.key = (g.edges.cellAt e side).key

namespace KeepsIntegers

variable {e : Row} {other : String}

/-- Vertices are at ends of edges by value. -/
theorem atEnd_eq (h : g.KeepsIntegers) (hside : side ∈ [srcColumn, dstColumn])
    (hvertex : vertex ∈ g.vertices.rows) (he : e ∈ g.edges.rows) :
    g.atEnd side vertex e = (g.vertices.cellAt vertex idColumn).same (g.edges.cellAt e side) :=
  ColumnKind.equal_eq_same (h.id vertex hvertex) (h.side side hside e he)

theorem poolsAlike (h : g.KeepsIntegers) : g.PoolsAlike := by
  intro side other hpair vertex hvertex e he
  have hside := mem_sides hpair
  have hend := h.side side hside e he
  have hkey := ColumnKind.key_align (g.edges.kindAt side) (g.edges.kindAt other) hend
  rw [h.atEnd_eq hside hvertex he, pooledAt, ColumnKind.equal_eq_same (h.id vertex hvertex),
    Value.same_congr rfl hkey]
  exact (Value.key_toFloat_congr hkey).trans (hend.trans hkey.symm)

theorem identifies (h : g.KeepsIntegers) (hside : side ∈ [srcColumn, dstColumn]) :
    g.Identifies side := by
  intro _ _ e he vertex hvertex vertex' hvertex' hend hend'
  rw [h.atEnd_eq hside hvertex he] at hend
  rw [h.atEnd_eq hside hvertex' he] at hend'
  exact eq_of_idKey hvertex hvertex'
    ((Value.same_iff.1 hend).2.2.trans (Value.same_iff.1 hend').2.2.symm)

theorem countsEnds (h : g.KeepsIntegers) (hside : side ∈ [srcColumn, dstColumn])
    (hapart : g.idCells.apart (g.edges.named side) = false) : g.CountsEnds side where
  apart happart := absurd (hapart.symm.trans happart) nofun
  single _ _ vertex hvertex e he e' he' hend hend' := by
    rw [h.atEnd_eq hside hvertex he] at hend
    rw [h.atEnd_eq hside hvertex he'] at hend'
    exact (Value.same_iff.1 hend).2.2.symm.trans (Value.same_iff.1 hend').2.2

end KeepsIntegers

/-! ## Degrees -/

theorem keepsIntegers_untidyGraph : untidyGraph.KeepsIntegers where
  id := by decide +kernel
  side := by decide +kernel

/-- A binary64 identity, and edges that start at two integers that are rounded to it. -/
def crowdedGraph : Graph where
  vertices := .ofColumns [(idColumn, { kind := .float, cells := [.float (.ofInt (2 ^ 53))] })]
  edges := .ofColumns [(srcColumn, { kind := .int, cells := [.int (2 ^ 53), .int (2 ^ 53 + 1)] }),
    (dstColumn, { kind := .int, cells := [.int 7, .int 7] })]
  nodup_vertices := by decide +kernel
  nodup_edges := by decide +kernel
  id_mem := by decide +kernel
  src_mem := by decide +kernel
  dst_mem := by decide +kernel
  id_not_null := by decide +kernel
  nodup_id := by decide +kernel

end Graph

end GraphMotif
