import GraphMotif.Proofs.Graph.Filter
import GraphMotif.Proofs.Graph.Omission
import GraphMotif.Proofs.Graph.Renaming

/-!
# Results without a name

Erasing a name that a pattern uses once takes its columns away from the result. If the name is that
of a vertex clause or of an edge, the rows stay; if it is that of an end of an edge, rows are added
for the edges without a vertex at that end. Only where integer identities are rounded to meet
binary64 ends, one end may be equal to several identities, and then a row is there once for each of
them.
-/

namespace GraphMotif

/-- Whether a column of a result is one of the element of a name. -/
def Label.isOf (x : String) : Label → Bool
  | .plain _ => false
  | .bundled element _ => element = x

/-- The result without the columns of a name. -/
def Table.without (t : Table Label) (x : String) : Table Label :=
  t.select (t.names.filter fun label => !label.isOf x)

namespace Graph

variable (g : Graph)

/-- The edge of a binding in a row of the plan of a pattern below its projection. -/
def edgeOf (t : Table Label) (edge : Binding) (row : Row) : Row :=
  g.edges.names.map fun column => row.cell (t.names.idxOf (.plain (qualified edge.column column)))

/-- A result `t` has the rows of the result `t'` of a plan whose matches have a vertex at an end of
an edge: not more of any row than `t'` has, and all of them if edges start and end at vertices
only. -/
structure SelectsMatches (side : String) (edge : Binding) (plan : MatchPlan) (t t' : Table Label) :
    Prop where
  subperm : t.rows.Subperm t'.rows
  selected : ∃ c, plan.child.eval g.relations = .ok c ∧ c.projectTo plan.outputs = .ok t' ∧
    t.rows.Perm (t'.keep (c.rows.map fun row => g.hasVertexAt side (g.edgeOf c edge row))).rows
  all : (∀ e ∈ g.edges.rows, g.isAnchored e = true) → t.rows.Perm t'.rows

/-- A pattern without a name has a plan, and the result has the other columns of the result with the
name, unless one of the searches stops for keys that cannot be compared. If the name is that of a
vertex clause or of a positive edge, the rows are the same in these columns. If it is that of an end
of a positive edge clause where identities are unique, they are those of the matches whose edge has
a vertex at that end. -/
def FindsWithout (p : Pattern) (x : String) : Prop :=
  ∃ r plan, p.resolve = .ok r ∧ (p.erase x).resolve = .ok (r.mapSlots (eraseName x)) ∧
    g.compile (p.erase x) = .ok plan ∧
    ((∃ a b, g.find p = .error (.eval (.incomparableKeys a b))) ∨
      (∃ a b, g.find (p.erase x) = .error (.eval (.incomparableKeys a b))) ∨
        ∃ t t', g.find p = .ok t ∧ g.find (p.erase x) = .ok t' ∧ (t.without x).names = t'.names ∧
          (p.NamesElement x → (t.without x).rows.Perm t'.rows) ∧
          ∀ clause side, .edge clause ∈ p.clauses → clause.negated = false →
            (x, side) ∈ clause.namedEnds → g.Identifies side →
              ∃ src edge dst, .edge clause src edge dst ∈ r.clauses ∧
                g.SelectsMatches side edge plan (t.without x) t')

variable {g} {p : Pattern} {plan plan' : MatchPlan} {r : Resolution} {o o' : Outline} {x side : String}
  {v edge : Binding} {t t' : Table Label} {f : Frame} {row : Row} {label : Label}

theorem edgeOf_eq (ht : t.Realizes f) (hkind : edge.kind = .edge) :
    g.edgeOf t edge row = g.part f row edge := by
  rw [edgeOf, part, tagged_eq, List.map_map, hkind]
  refine List.map_congr_left fun column _ => ?_
  rw [ht.names, idxOf_map_of_injective fun _ _ => Label.plain.inj]
  rfl

/-- A result is a projection of a table with the frame of the outline. -/
theorem Outlined.exists_child (h : g.Outlined p plan r o) (hfind : g.find p = .ok t) :
    ∃ c, plan.child.eval g.relations = .ok c ∧ c.projectTo plan.outputs = .ok t ∧
      c.Realizes (g.frame o) := by
  rw [find, h.compiled] at hfind
  have heval : plan.root.eval g.relations = .ok t := mapError_eq_ok_iff.1 hfind
  obtain ⟨c, hc, hproject⟩ := bind_eq_ok_iff.1 heval
  refine ⟨c, hc, hproject, ?_⟩
  have hsupply : g.relations.Supply plan.child :=
    Plan.Supply.of_subset h.supply fun node hnode => List.mem_cons_of_mem _ hnode
  have hyields := Plan.eval_yields (h.child ▸ h.relational) hsupply (h.child ▸ h.check_child)
  rcases hyields with ⟨-, _, _, herror⟩ | ⟨-, c', hc', hrealizes⟩
  · cases hc.symm.trans herror
  · obtain rfl := Except.ok.inj (hc.symm.trans hc')
    rw [h.child] at hrealizes
    exact hrealizes

/-! ## What is shown -/

theorem Outlined.resultLabels_eq (h : g.Outlined p plan r o) :
    g.resultLabels p = (r.bindings.filter Binding.visible).flatMap fun b =>
      (g.schema.columns b.kind).map (.bundled b.outputName) := by
  rw [← h.labels, MatchPlan.root, Plan.labels, h.outputs, List.flatMap_map]
  refine List.flatMap_congr fun b _ => ?_
  rw [Schema.bundle, Schema.tagged, zip_map_self, List.map_map]
  rfl

/-- Without a name, a row shows what it shows of the other names. -/
theorem shownCell_erase (hlabel : label.isOf x = false) (f : Frame) (row : Row) :
    shownCell (r.mapSlots (eraseName x)).bindings f row label = shownCell r.bindings f row label := by
  cases label with
  | plain name => rfl
  | bundled name column =>
    have hfind : Binding.find? (r.mapSlots (eraseName x)).bindings name =
        (Binding.find? r.bindings name).map (Binding.mapName (eraseName x)) :=
      find?_map_eraseName (of_decide_eq_false hlabel) r.bindings
    rw [shownCell, shownCell, hfind, Option.map_map]
    rfl

section Erased

variable (h : g.Outlined p plan r o)
  (h' : g.Outlined (p.erase x) plan' (r.mapSlots (eraseName x)) o')

include h h'

/-- The result without a name has no columns of it, and all others. -/
theorem resultLabels_erase :
    g.resultLabels (p.erase x) = (g.resultLabels p).filter fun label => !label.isOf x := by
  rw [h.resultLabels_eq, h'.resultLabels_eq, List.filter_flatMap]
  have hbindings : (r.mapSlots (eraseName x)).bindings.filter Binding.visible =
      (r.bindings.filter Binding.visible).filter fun b => b.name ≠ some x :=
    filter_visible_map_eraseName r.bindings
  rw [hbindings, flatMap_filter]
  refine List.flatMap_congr fun b hb => ?_
  obtain ⟨name, hname⟩ := Option.isSome_iff_exists.1 (List.mem_filter.1 hb).2
  have houtput : b.outputName = name := by rw [Binding.outputName, hname, Option.getD_some]
  have hisOf : (fun column => !(Label.bundled name column).isOf x) =
      fun _ => decide (some name ≠ some x) := by
    refine funext fun column => ?_
    simp only [Label.isOf, ne_eq, Option.some.injEq, decide_not]
  rw [houtput, hname, List.filter_map, Function.comp_def, hisOf]
  split
  · next hne => rw [hne, List.filter_true]
  · next hne => rw [Bool.eq_false_iff.2 hne, List.filter_false, List.map_nil]

/-- The rows of a result without a name. -/
theorem rows_without (hnames : t.names = g.resultLabels p)
    (hrows : t.rows = (g.frame o).rows.map fun row =>
      t.names.map (shownCell r.bindings (g.frame o) row)) :
    (t.without x).rows = (g.frame o).rows.map fun row =>
      (g.resultLabels (p.erase x)).map
        (shownCell (r.mapSlots (eraseName x)).bindings (g.frame o) row) := by
  rw [Table.without, Table.rows_select hrows fun label hlabel => (List.mem_filter.1 hlabel).1, hnames,
    ← resultLabels_erase h h']
  refine List.map_congr_left fun row _ => List.map_congr_left fun label hlabel => ?_
  rw [resultLabels_erase h h', List.mem_filter, Bool.not_eq_true'] at hlabel
  exact (shownCell_erase hlabel.2 (g.frame o) row).symm

/-- Where the outline without the name omits a lookup, the rows of the result without the name are
those of its matches whose edge has a vertex at the end. -/
theorem rows_without_of_omits (homits : Outline.Omits v edge side o' o) (hvertex : v.kind = .vertex)
    (hkind : edge.kind = .edge) (hside : side ∈ [srcColumn, dstColumn]) (hunique : g.Identifies side)
    (hnames : t.names = g.resultLabels p)
    (hrows : t.rows = (g.frame o).rows.map fun row =>
      t.names.map (shownCell r.bindings (g.frame o) row)) :
    (t.without x).rows = ((g.frame o').rows.filter fun row =>
        g.hasVertexAt side (g.part (g.frame o') row edge)).map fun row =>
      (g.resultLabels (p.erase x)).map
        (shownCell (r.mapSlots (eraseName x)).bindings (g.frame o') row) := by
  have hcut := cut_of_omits homits h.supports h'.supports hvertex hkind hside hunique
  have hselected : (g.frame o').rows.filter
      (fun row => g.hasVertexAt side (g.part (g.frame o') row edge)) =
        (g.frame o).rows.map fun row => (g.frame o').names.map ((g.frame o).cell row) := hcut.rows
  rw [rows_without h h' hnames hrows, hselected, List.map_map]
  refine List.map_congr_left fun row _ => List.map_congr_left fun label hlabel => ?_
  obtain ⟨kind, name, hs, column, hcolumn, rfl⟩ := mem_resultLabels.1 hlabel
  obtain ⟨b, hb, rfl, hname⟩ := h'.exists_binding hs
  rw [shownCell_eq h'.isScope (h'.subset b hb) hname, shownCell_eq h'.isScope (h'.subset b hb) hname]
  exact (Frame.Cut.cell_eq (mem_names_frame hb hcolumn) row).symm

end Erased

/-- Erasing a name that is used once as that of an end of a positive clause selects matches. -/
theorem selectsMatches_erase {clause : EdgeClause} {src dst : Binding} (h : g.Outlined p plan r o)
    (h' : g.Outlined (p.erase x) plan' (r.mapSlots (eraseName x)) o')
    (honce : p.slots.count (some x) = 1) (hc : .edge clause src edge dst ∈ r.clauses)
    (hpositive : clause.negated = false) (hend : (x, side) ∈ clause.namedEnds)
    (hunique : g.Identifies side) (hnames : t.names = g.resultLabels p)
    (hrows : t.rows = (g.frame o).rows.map fun row =>
      t.names.map (shownCell r.bindings (g.frame o) row)) (hfind' : g.find (p.erase x) = .ok t')
    (hnames' : t'.names = g.resultLabels (p.erase x))
    (hrows' : t'.rows = (g.frame o').rows.map fun row =>
      t'.names.map (shownCell (r.mapSlots (eraseName x)).bindings (g.frame o') row)) :
    g.SelectsMatches side edge plan' (t.without x) t' := by
  obtain ⟨v, -, hvertex, hname, hpair⟩ := h.exists_end hc hend
  obtain ⟨-, ⟨-, hkind, -⟩, -⟩ := h.edge_spec hc
  have hside := (Outline.mem_sides hpair).2.1
  have hedge : v ≠ edge := fun heq => absurd (hvertex.symm.trans ((congrArg _ heq).trans hkind)) nofun
  obtain ⟨o₁, ho₁, homits⟩ :=
    Pattern.exists_omits h.resolve h.isScope h.outline honce hc hpositive hedge hpair hname
  obtain rfl := Option.some.inj (h'.outline.symm.trans ho₁)
  have hwithout := rows_without_of_omits h h' homits hvertex hkind hside hunique hnames hrows
  rw [hnames'] at hrows'
  refine ⟨?_, ?_, fun hanchored => .of_eq ?_⟩
  · rw [hwithout, hrows']
    exact (List.filter_sublist.map _).subperm
  · obtain ⟨c, hchild, hproject, hrealizes⟩ := h'.exists_child hfind'
    refine ⟨c, hchild, hproject, .of_eq ?_⟩
    have hmarks : (c.rows.map fun row => g.hasVertexAt side (g.edgeOf c edge row)) =
        (g.frame o').rows.map fun row => g.hasVertexAt side (g.part (g.frame o') row edge) := by
      rw [hrealizes.rows]
      exact List.map_congr_left fun row _ => by rw [edgeOf_eq hrealizes hkind]
    show _ = Table.marked t'.rows _
    rw [hmarks, hwithout, hrows', Table.marked_map_map]
  · rw [hwithout, hrows', List.filter_eq_self.2 fun row hrow => ?_]
    have hedgepart := edge_mem h'.relational homits.edge_mem hkind hrow
    exact isAnchored_iff.1 (hanchored _ hedgepart) side hside

/-- Erasing a name that a pattern uses once only takes its columns away, if it is the name of a
vertex clause or of a positive edge. If it is that of an end of a positive edge clause, erasing it
also adds the matches whose edge has no vertex at that end, as long as none of the ends is equal to
several identities. -/
theorem find_erase (hplan : g.compile p = .ok plan) (honce : p.slots.count (some x) = 1) :
    g.FindsWithout p x := by
  obtain ⟨r, plan', hr, hr', hplan'⟩ := Schema.exists_compilePattern_erase hplan honce
  have hempty : p.isEmpty = false := by
    refine Bool.eq_false_iff.2 fun hempty => ?_
    rw [Pattern.slots, List.isEmpty_iff.1 hempty] at honce
    cases honce
  obtain ⟨r₁, o, h⟩ := exists_outlined hplan hempty
  obtain ⟨r₂, o', h'⟩ := exists_outlined hplan' ((p.isEmpty_mapSlots (eraseName x)).trans hempty)
  obtain rfl := Except.ok.inj (hr.symm.trans h.resolve)
  obtain rfl := Except.ok.inj (hr'.symm.trans h'.resolve)
  refine ⟨r, plan', hr, hr', hplan', ?_⟩
  rcases h.find_eq with herror | ⟨t, hfind, hnames, hrows⟩
  · exact .inl herror
  rcases h'.find_eq with herror | ⟨t', hfind', hnames', hrows'⟩
  · exact .inr (.inl herror)
  refine .inr (.inr ⟨t, t', hfind, hfind', ?_, fun hx => .of_eq ?_, ?_⟩)
  · rw [Table.without, Table.names_select, hnames, hnames', resultLabels_erase h h']
  · have hframe : g.frame o' = g.frame o := by
      rw [frame, frame, ← h.child, ← h'.child, Schema.child_erase hplan hplan' honce hx]
    rw [rows_without h h' hnames hrows, hrows', hnames', hframe]
  · intro clause side hclause hpositive hend hunique
    obtain ⟨src, edge, dst, hc⟩ := h.exists_edge hclause
    exact ⟨src, edge, dst, hc, selectsMatches_erase h h' honce hc hpositive hend hunique hnames hrows
      hfind' hnames' hrows'⟩

theorem exists_of_foundRows {clauses : List Clause} {n : Nat}
    (h : foundRows g clauses = some n) : ∃ t, g.find { clauses } = .ok t ∧ t.rows.length = n := by
  rw [foundRows] at h
  cases hfind : g.find { clauses } with
  | error e =>
    rw [hfind] at h
    exact absurd h nofun
  | ok t =>
    rw [hfind] at h
    exact ⟨t, rfl, Option.some.inj h⟩

/-- Two integer identities that are rounded to one binary64 number, and two edges that start at this
number: one ends at a vertex, the other one does not. -/
def closeGraph : Graph where
  vertices := .ofColumns [(idColumn, { kind := .int, cells := [.int (2 ^ 53), .int (2 ^ 53 + 1)] })]
  edges := .ofColumns [(srcColumn,
      { kind := .float, cells := [.float (.ofInt (2 ^ 53)), .float (.ofInt (2 ^ 53))] }),
    (dstColumn, { kind := .int, cells := [.int (2 ^ 53 + 1), .int 7] })]
  nodup_vertices := by decide +kernel
  nodup_edges := by decide +kernel
  id_mem := by decide +kernel
  src_mem := by decide +kernel
  dst_mem := by decide +kernel
  id_not_null := by decide +kernel
  nodup_id := by decide +kernel

/-- The plan of an edge with its two ends, over the reserved columns. -/
def linkPlan : MatchPlan where
  child := .join (.join (.scan .edge "e1" [srcColumn, dstColumn]) (.scan .vertex "v0" [idColumn])
      [{ left := qualified "e1" srcColumn, right := qualified "v0" idColumn }])
    (.scan .vertex "v2" [idColumn])
    [{ left := qualified "e1" dstColumn, right := qualified "v2" idColumn }]
  outputs := [{ name := "a", attributes := [idColumn], columns := [qualified "v0" idColumn] },
    { name := "e", attributes := [srcColumn, dstColumn],
      columns := [qualified "e1" srcColumn, qualified "e1" dstColumn] },
    { name := "b", attributes := [idColumn], columns := [qualified "v2" idColumn] }]
  pattern := "(a)-[e]->(b)"

theorem compile_linkPattern : closeGraph.compile linkPattern = .ok linkPlan := by decide +kernel

/-- Without the name of the end, the edge that ends at no vertex is found as well; the name of the
edge can be erased too. -/
theorem find_erase_linkPattern :
    closeGraph.compile linkPattern = .ok linkPlan ∧
      (linkPattern.slots.count (some "b") = 1 ∧
        (∃ e, Clause.edge e ∈ linkPattern.clauses ∧ e.negated = false ∧
          ("b", dstColumn) ∈ e.namedEnds) ∧ closeGraph.Identifies dstColumn ∧
        closeGraph.FindsWithout linkPattern "b" ∧ foundRows closeGraph linkPattern.clauses = some 2 ∧
          foundRows closeGraph (linkPattern.erase "b").clauses = some 4) ∧
      linkPattern.slots.count (some "e") = 1 ∧ linkPattern.NamesElement "e" ∧
        closeGraph.FindsWithout linkPattern "e" := by
  refine ⟨compile_linkPattern, ⟨by decide, ⟨_, List.mem_cons_self, rfl, by decide⟩, fun _ hkind => ?_,
    find_erase compile_linkPattern (by decide), by decide +kernel⟩, by decide,
    .inr ⟨_, List.mem_cons_self, rfl, rfl⟩, find_erase compile_linkPattern (by decide)⟩
  exact absurd hkind (by decide +kernel)

/-- Where one end of an edge is equal to two identities, a match is there once for each of them, but
only once without the name of the end. -/
theorem find_erase_ne_rounded :
    (∃ plan, closeGraph.compile linkPattern = .ok plan) ∧ linkPattern.slots.count (some "a") = 1 ∧
      ∃ t t', closeGraph.find linkPattern = .ok t ∧
        closeGraph.find (linkPattern.erase "a") = .ok t' ∧ ¬(t.without "a").rows.Subperm t'.rows := by
  refine ⟨⟨_, compile_linkPattern⟩, by decide, ?_⟩
  have hrows : foundRows closeGraph linkPattern.clauses = some 2 ∧
      foundRows closeGraph (linkPattern.erase "a").clauses = some 1 := by
    decide +kernel
  obtain ⟨t, hfind, ht⟩ := exists_of_foundRows hrows.1
  obtain ⟨t', hfind', ht'⟩ := exists_of_foundRows hrows.2
  refine ⟨t, t', hfind, hfind', fun hsub => ?_⟩
  have hlength : t.rows.length ≤ t'.rows.length := by
    have hle := hsub.length_le
    rwa [show (t.without "a").rows.length = t.rows.length from List.length_map ..] at hle
  rw [ht, ht'] at hlength
  exact absurd hlength (by decide)

end Graph

end GraphMotif
