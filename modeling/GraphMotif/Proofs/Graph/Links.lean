import GraphMotif.Proofs.Graph.Tabulate

/-!
# Demands of clauses

A positive edge clause demands that its named ends are at its edge; a negated clause forbids edges
that fulfil such demands and have the cells of the edge that it names.
-/

namespace GraphMotif

/-- The demand that the vertex of a name is at the end of an edge that a column identifies. -/
def endLink (name : String) (edge : Site) (side : String) : Link where
  left := .named .vertex name
  leftColumn := idColumn
  right := edge
  rightColumn := side
  nullSafe := false

/-- The same demand, the vertex being looked up from the edge. -/
def lookupLink (name : String) (edge : Site) (side : String) : Link where
  left := edge
  leftColumn := side
  right := .named .vertex name
  rightColumn := idColumn
  nullSafe := false

/-- The demand that two edges agree in a column, a null agreeing with a null. -/
def sameLink (edge edge' : Site) (column : String) : Link where
  left := edge
  leftColumn := column
  right := edge'
  rightColumn := column
  nullSafe := true

/-- The demands of an edge clause on those of its named ends that are there. -/
def boundLinks (sites : List Site) (edge : Site) (ends : List (String × String)) : List Link :=
  (ends.filter fun x => .named .vertex x.1 ∈ sites).map fun x =>
    endLink x.1 edge x.2

/-- What a negated clause demands of an edge: to be at the ends that it names, and to have the cells
of the edge that it names. -/
def negatedLinks (columns : List String) (edge : Site) (e : EdgeClause) : List Link :=
  (e.namedEnds.map fun x => endLink x.1 edge x.2) ++
    e.edge.toList.flatMap fun name => columns.map (sameLink (.named .edge name) edge)

theorem EdgeClause.mem_namedEnds {e : EdgeClause} {name side : String} :
    (name, side) ∈ e.namedEnds ↔
      e.src = some name ∧ side = srcColumn ∨ e.dst = some name ∧ side = dstColumn := by
  rw [namedEnds, List.mem_filterMap]
  simp only [List.mem_cons, List.not_mem_nil, or_false, or_and_right, exists_or, exists_eq_left,
    Option.map_eq_some_iff, Prod.mk.injEq]
  refine or_congr ?_ ?_ <;>
    exact ⟨fun ⟨_, hslot, hname, hside⟩ => ⟨hname ▸ hslot, hside.symm⟩,
      fun ⟨hslot, hside⟩ => ⟨name, hslot, rfl, hside.symm⟩⟩

theorem EdgeClause.namedEnds_eq (e : EdgeClause) :
    e.namedEnds = e.src.toList.map (·, srcColumn) ++ e.dst.toList.map (·, dstColumn) := by
  rw [namedEnds]
  cases e.src <;> cases e.dst <;> rfl

/-- An end that a pattern names is a source or a destination. -/
theorem Pattern.side_mem {p : Pattern} {name side : String} (h : (name, side) ∈ p.namedEnds) :
    side ∈ [srcColumn, dstColumn] := by
  obtain ⟨c, -, hend⟩ := List.mem_flatMap.1 h
  cases c with
  | vertex => exact absurd hend List.not_mem_nil
  | edge e =>
    rcases EdgeClause.mem_namedEnds.1 hend with ⟨-, hside⟩ | ⟨-, hside⟩
    · exact List.mem_cons.2 (.inl hside)
    · exact List.mem_cons_of_mem _ (List.mem_singleton.2 hside)

namespace Graph

variable {g : Graph} {p : Pattern} {sites : List Site} {edge edge' : Site}
  {name side column : String} {a : Assignment} {e : EdgeClause}

theorem holds_endLink (hedge : edge.kind = .edge) :
    g.holds a (endLink name edge side) =
      g.atEnd side (a (.named .vertex name)) (a edge) := by
  simp only [holds, endLink, equalAt, hedge, Bool.false_and, Bool.or_false]
  rfl

theorem holds_lookupLink (hedge : edge.kind = .edge) :
    g.holds a (lookupLink name edge side) =
      g.atEnd side (a (.named .vertex name)) (a edge) := by
  simp only [holds, lookupLink, equalAt, hedge, Bool.false_and, Bool.or_false]
  exact ColumnKind.equal_comm ..

theorem all_holds_sameLink (hedge : edge.kind = .edge) (hedge' : edge'.kind = .edge) :
    (g.edges.names.map (sameLink edge edge')).all (g.holds a) =
      g.sameEdge (a edge) (a edge') := by
  rw [List.all_map, sameEdge]
  refine all_congr_of_mem fun column _ => ?_
  simp only [Function.comp_apply, holds, sameLink, equalAt, hedge, hedge', ColumnKind.equal_self,
    Bool.true_and]
  rfl

theorem relates_endLink (hvertex : Site.named .vertex name ∈ sites) (hedge : edge.kind = .edge)
    (hend : (name, side) ∈ p.namedEnds) : g.Relates p sites [edge] (endLink name edge side) where
  left := hvertex
  right := List.mem_cons_self
  leftColumn := g.idColumn_mem
  rightColumn := by
    simp only [endLink, hedge]
    exact g.side_mem (Pattern.side_mem hend)
  comparable := .idEnd hend hedge

theorem relates_lookupLink (hmem : edge ∈ sites) (hedge : edge.kind = .edge)
    (hend : (name, side) ∈ p.namedEnds) :
    g.Relates p sites [.named .vertex name] (lookupLink name edge side) where
  left := hmem
  right := List.mem_cons_self
  leftColumn := by
    simp only [lookupLink, hedge]
    exact g.side_mem (Pattern.side_mem hend)
  rightColumn := g.idColumn_mem
  comparable := .endId hend hedge

theorem relates_sameLink (hedge : edge ∈ sites) (hkind : edge.kind = .edge)
    (hkind' : edge'.kind = .edge) (hcolumn : column ∈ g.edges.names) :
    g.Relates p sites [edge'] (sameLink edge edge' column) where
  left := hedge
  right := List.mem_cons_self
  leftColumn := by
    simp only [sameLink, hkind]
    exact hcolumn
  rightColumn := by
    simp only [sameLink, hkind']
    exact hcolumn
  comparable := .self column (hkind.trans hkind'.symm)

theorem relates_boundLinks (hedge : edge.kind = .edge)
    (hends : ∀ x ∈ e.namedEnds, x ∈ p.namedEnds) :
    ∀ k ∈ boundLinks sites edge e.namedEnds, g.Relates p sites [edge] k := by
  intro k hk
  obtain ⟨x, hx, rfl⟩ := List.mem_map.1 hk
  obtain ⟨hmem, hsite⟩ := List.mem_filter.1 hx
  exact relates_endLink (of_decide_eq_true hsite) hedge (hends x hmem)

theorem hasEnds_iff {row : Row} : g.hasEnds a e row = true ↔
    ∀ name side, (name, side) ∈ e.namedEnds → g.atEnd side (a (.named .vertex name)) row = true := by
  rw [hasEnds, List.all_eq_true, Prod.forall]

theorem all_boundLinks_iff (hedge : edge.kind = .edge) :
    (boundLinks sites edge e.namedEnds).all (g.holds a) = true ↔
      ∀ name side, (name, side) ∈ e.namedEnds → .named .vertex name ∈ sites →
        g.atEnd side (a (.named .vertex name)) (a edge) = true := by
  rw [boundLinks, List.all_map, List.all_filter, List.all_eq_true, Prod.forall]
  refine forall₂_congr fun name side => forall_congr' fun _ => ?_
  rw [Function.comp_apply, holds_endLink hedge, Bool.or_eq_true, Bool.not_eq_true',
    decide_eq_false_iff_not, imp_iff_not_or]

/-- The edges that fulfil the demands of a negated clause are those that it forbids. -/
theorem all_negatedLinks (hedge : edge.kind = .edge)
    (hvertex : ∀ name kind, edge ≠ .named kind name) (row : Row) :
    (negatedLinks g.edges.names edge e).all (g.holds (Function.update a edge row)) =
      (g.hasEnds a e row && e.edge.all fun name => g.sameEdge (a (.named .edge name)) row) := by
  have hnamed (kind : Element) (name : String) :
      Function.update a edge row (.named kind name) = a (.named kind name) :=
    Function.update_of_ne (hvertex name kind).symm ..
  rw [negatedLinks, List.all_append, List.all_map, hasEnds]
  refine congrArg₂ _ (all_congr_of_mem fun x _ => ?_) ?_
  · rw [Function.comp_apply, holds_endLink hedge, hnamed, Function.update_self]
  · cases e.edge with
    | none => rfl
    | some name =>
      rw [Option.toList_some, List.flatMap_singleton, all_holds_sameLink rfl hedge, hnamed,
        Function.update_self, Option.all_some]

theorem relates_negatedLinks (hedge : edge.kind = .edge)
    (hends : ∀ x ∈ e.namedEnds, x ∈ p.namedEnds)
    (hsites : ∀ x ∈ e.namedEnds, Site.named .vertex x.1 ∈ sites)
    (hname : ∀ name, e.edge = some name → Site.named .edge name ∈ sites) :
    ∀ k ∈ negatedLinks g.edges.names edge e, g.Relates p sites [edge] k := by
  intro k hk
  rcases List.mem_append.1 hk with hk | hk
  · obtain ⟨x, hx, rfl⟩ := List.mem_map.1 hk
    exact relates_endLink (hsites x hx) hedge (hends x hx)
  · obtain ⟨name, hmem, hk⟩ := List.mem_flatMap.1 hk
    obtain ⟨column, hcolumn, rfl⟩ := List.mem_map.1 hk
    exact relates_sameLink (hname name (Option.mem_toList.1 hmem)) rfl hedge hcolumn

end Graph

end GraphMotif
