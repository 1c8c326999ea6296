import GraphMotif.Proofs.Graph.Parts
import GraphMotif.Proofs.Graph.Result

/-!
# Results by outlines

The result of a pattern shows, of every row in the frame of its outline, the parts of the visible
bindings. This holds over every graph, however identities meet the ends of edges: what a plan looks
like does not depend on rows, and a graph without vertices has steady keys.
-/

namespace GraphMotif

namespace Graph

variable {g : Graph} {p : Pattern} {plan : MatchPlan} {r : Resolution} {o : Outline}

/-- A plan of a pattern with clauses over a graph, drawn by the outline of the pattern. -/
structure Outlined (g : Graph) (p : Pattern) (plan : MatchPlan) (r : Resolution) (o : Outline) :
    Prop where
  compiled : g.compile p = .ok plan
  resolve : p.resolve = .ok r
  outline : Outline.addClauses none 0 r.clauses = some o
  child : plan.child = o.plan g.schema
  outputs : plan.outputs = (r.bindings.filter Binding.visible).map g.schema.bundle
  relational : (o.plan g.schema).Relational
  supply : g.relations.Supply plan.root
  check : plan.root.check = .ok ()
  labels : plan.root.labels = g.resultLabels p
  isScope : Scope r.bindings
  subset : ∀ b ∈ o.bindings, b ∈ r.bindings
  named : CarriesNamed r.bindings o.bindings
  shown : shownSites r.bindings = p.sites.filter Site.isNamed
  sited : ∀ b ∈ o.bindings, ∃ clause, b.site clause ∈ p.sites
  sound : o.Sound

/-- A graph without vertices has steady keys, whatever its columns are. -/
theorem steadyKeys_keepVertices_nil (p : Pattern) : (g.keepVertices []).SteadyKeys p := by
  refine fun name => .inr fun side hend vertex hvertex => ?_
  have hnone : (g.keepVertices []).vertices.rows = [] := by
    show Table.marked g.vertices.rows [] = []
    rw [Table.marked, List.zip_nil_right]
    rfl
  exact absurd (hnone ▸ hvertex) List.not_mem_nil

/-- Two lists of bindings that one frontier carries are the same. -/
theorem bindings_eq_of_carries {s : Schema} {scope bs bs' : List Binding} {f : Frontier}
    (h : f.Carries s scope bs) (h' : f.Carries s scope bs') : bs = bs' := by
  have hcolumns : bs.map (·.column) = bs'.map (·.column) := h.bound.symm.trans h'.bound
  refine List.ext_getElem ?_ fun i hi hi' => ?_
  · have hlength := congrArg List.length hcolumns
    rwa [List.length_map, List.length_map] at hlength
  · have hcolumn : bs[i].column = bs'[i].column := by
      have hmap := List.getElem_of_eq hcolumns (i := i) (by rwa [List.length_map])
      rwa [List.getElem_map, List.getElem_map] at hmap
    exact h.isScope.column_inj (h.subset _ (List.getElem_mem hi)) (h'.subset _ (List.getElem_mem hi'))
      hcolumn

/-- Every plan of a pattern with clauses is drawn by the outline of the pattern. -/
theorem exists_outlined (hplan : g.compile p = .ok plan) (hne : p.isEmpty = false) :
    ∃ r o, g.Outlined p plan r o := by
  -- over the vertices taken away, the schema and so the plan are the same
  have hplan' : (g.keepVertices []).compile p = .ok plan := hplan
  have hsteady := g.steadyKeys_keepVertices_nil p
  obtain ⟨hrelational, hsupply, hcheck, hlabels, -⟩ := compile_spec hplan' hsteady
  have hsupply : g.relations.Supply plan.root := fun element tag columns hscan column hcolumn => by
    have hmem := hsupply element tag columns hscan column hcolumn
    cases element <;> exact hmem
  obtain ⟨r, f, carried, hresolve, hadds, hreached, hchild, houtputs⟩ :=
    exists_reached hplan' hsteady hne
  obtain ⟨clauses, bindings, hok, -, rfl⟩ := Pattern.resolve_eq_ok_iff.1 hresolve
  have hfinds : (g.keepVertices []).Finds p bindings p.clauses.length f carried _ := hreached.finds
  obtain ⟨o, houtline, hdraws, hnamed⟩ := Outline.exists_draws hok hadds
  have hdraws : o.Draws g.schema bindings f := hdraws
  have hbindings : o.bindings = carried.map Prod.snd :=
    bindings_eq_of_carries hdraws.carries hfinds.carries
  refine ⟨_, o, hplan, hresolve, houtline, hchild.trans hdraws.plan, houtputs, ?_, hsupply, hcheck,
    hlabels, hdraws.carries.isScope, hdraws.carries.subset, hnamed, hreached.shown_eq,
    fun b hb => ?_, hdraws.sound⟩
  · rw [← hdraws.plan, ← hchild]
    exact hrelational
  · rw [hbindings] at hb
    obtain ⟨⟨s, b⟩, hmem, rfl⟩ := List.mem_map.1 hb
    obtain ⟨clause, -, hsite⟩ := hfinds.sited.site_eq _ hmem
    obtain rfl : s = b.site clause := hsite
    refine ⟨clause, ?_⟩
    rw [p.sites_eq, List.mem_eraseDups, ← hreached.mem_sites]
    exact List.mem_map_of_mem (f := Prod.fst) hmem

/-! ## The result -/

/-- The labels of the result are those of the columns of the names. -/
theorem mem_resultLabels {label : Label} :
    label ∈ g.resultLabels p ↔ ∃ kind name, Site.named kind name ∈ p.sites ∧
      ∃ column ∈ (g.relations.table kind).names, .bundled name column = label := by
  rw [resultLabels, List.mem_flatMap]
  constructor
  · rintro ⟨s, hs, hlabel⟩
    cases s with
    | nameless => exact absurd hlabel List.not_mem_nil
    | named kind name =>
      rw [shownLabels, columns_eq] at hlabel
      exact ⟨kind, name, hs, List.mem_map.1 hlabel⟩
  · rintro ⟨kind, name, hs, hlabel⟩
    refine ⟨_, hs, ?_⟩
    rw [shownLabels, columns_eq]
    exact List.mem_map.2 hlabel

/-- The cell of a row under a label of the result. -/
def shownCell (scope : List Binding) (f : Frame) (row : Row) : Label → Value
  | .bundled name column =>
    ((Binding.find? scope name).map fun b => f.cell row (qualified b.column column)).getD .null
  | .plain _ => .null

theorem shownCell_eq {scope : List Binding} (hscope : Scope scope) {b : Binding} (hb : b ∈ scope)
    {name : String} (hname : b.name = some name) (f : Frame) (row : Row) (column : String) :
    shownCell scope f row (.bundled name column) = f.cell row (qualified b.column column) := by
  rw [shownCell, hscope.find?_eq_some hb hname]
  rfl

theorem find_eq_error_of_compile {e : CompileError} (h : g.compile p = .error e) :
    g.find p = .error (.compile e) := by
  rw [find, h]
  rfl

/-- The pattern without clauses is found nowhere. -/
theorem find_of_isEmpty (hplan : g.compile p = .ok plan) (hempty : p.isEmpty = true) :
    ∃ t, g.find p = .ok t ∧ t.names = g.resultLabels p ∧ t.rows = [] := by
  obtain rfl := eq_of_compile_of_isEmpty hplan hempty
  have hclauses : p.clauses = [] := List.isEmpty_iff.1 hempty
  refine ⟨{ headings := [], rows := [], rectangular := by simp }, ?_, ?_, rfl⟩
  · rw [find, hplan]
    rfl
  · rw [resultLabels, Pattern.sites, hclauses]
    rfl

namespace Outlined

/-- Over any two graphs, a pattern has one resolution and one outline. -/
theorem unique {g' : Graph} {plan' : MatchPlan} {r' : Resolution} {o' : Outline}
    (h : g.Outlined p plan r o) (h' : g'.Outlined p plan' r' o') : r' = r ∧ o' = o := by
  obtain rfl := Except.ok.inj (h.resolve.symm.trans h'.resolve)
  exact ⟨rfl, Option.some.inj (h'.outline.symm.trans h.outline)⟩

variable (h : g.Outlined p plan r o)

include h

theorem check_child : (o.plan g.schema).check = .ok () := by
  have hcheck := h.check
  rw [MatchPlan.root, Plan.check_project, h.child] at hcheck
  exact hcheck.2

/-- A pattern without negated clauses has an outline without anti-joins. -/
theorem positive (hpositive : ∀ c ∈ p.clauses, c.negated = false) : o.Positive := by
  obtain ⟨clauses, bindings, hok, -, hr⟩ := Pattern.resolve_eq_ok_iff.1 h.resolve
  have hclauses : r.clauses.map ResolvedClause.clause = p.clauses := by
    rw [hr]
    exact map_clause_of_resolveClauses .nil hok
  have hnone : ∀ o ∈ (none : Option Outline), o.Positive := fun o ho => absurd ho (by simp)
  refine Outline.positive_addClauses (fun c hc => hpositive c.clause ?_) hnone o h.outline
  rw [← hclauses]
  exact List.mem_map_of_mem hc

/-- Every visible name is that of a binding with a part in the rows. -/
theorem exists_binding {kind : Element} {name : String} (hs : Site.named kind name ∈ p.sites) :
    ∃ b ∈ o.bindings, b.kind = kind ∧ b.name = some name := by
  have hbound : Bound r.bindings kind name := by
    rw [← mem_shownSites, h.shown, List.mem_filter]
    exact ⟨hs, rfl⟩
  obtain ⟨b, hb, hkind, hname⟩ := hbound
  exact ⟨b, h.named b hb (hname ▸ rfl), hkind, hname⟩

/-- The name of a binding in the rows is visible. -/
theorem named_mem_sites {b : Binding} (hb : b ∈ o.bindings) {name : String}
    (hname : b.name = some name) : Site.named b.kind name ∈ p.sites := by
  obtain ⟨clause, hsite⟩ := h.sited b hb
  rwa [Binding.site_of_name hname] at hsite

/-- The rows of the result show the rows of the frame cell by cell. -/
theorem resultRows_eq : plan.root.resultRows g.relations = (g.frame o).rows.map fun row =>
    (g.resultLabels p).map (shownCell r.bindings (g.frame o) row) := by
  rw [← h.labels, MatchPlan.root, Plan.labels, Plan.resultRows, h.child, h.outputs]
  refine List.map_congr_left fun row _ => ?_
  rw [List.map_flatMap, List.flatMap_map, List.flatMap_map]
  refine List.flatMap_congr fun b hb => ?_
  obtain ⟨hmem, hvisible⟩ := List.mem_filter.1 hb
  obtain ⟨name, hname⟩ := Option.isSome_iff_exists.1 hvisible
  have houtput : b.outputName = name := by rw [Binding.outputName, hname, Option.getD_some]
  rw [Schema.bundle, Schema.tagged, houtput, zip_map_self, List.map_map, List.map_map, List.map_map]
  exact List.map_congr_left fun column _ => (shownCell_eq h.isScope hmem hname _ row column).symm

/-- Finding a pattern stops for keys that cannot be compared, or shows the frame of its outline. -/
theorem find_eq : (∃ a b, g.find p = .error (.eval (.incomparableKeys a b))) ∨
    ∃ t, g.find p = .ok t ∧ t.names = g.resultLabels p ∧
      t.rows = (g.frame o).rows.map fun row =>
        t.names.map (shownCell r.bindings (g.frame o) row) := by
  have hrelational : plan.child.Relational := h.child ▸ h.relational
  refine (find_eq_resultRows h.compiled hrelational h.supply h.check).imp And.right ?_
  rintro ⟨-, t, hfind, hnames, hrows⟩
  have hnames := hnames.trans h.labels
  refine ⟨t, hfind, hnames, ?_⟩
  rw [hrows, hnames]
  exact h.resultRows_eq

end Outlined

/-- Two graphs over which a pattern compiles: one of the searches stops for keys that cannot be
compared, or both find tables. These have no rows where the pattern has no clauses, and else show
the frames of one outline. -/
theorem find_both {g' : Graph} {plan' : MatchPlan} (hplan : g.compile p = .ok plan)
    (hplan' : g'.compile p = .ok plan') :
    (∃ a b, g.find p = .error (.eval (.incomparableKeys a b))) ∨
      (∃ a b, g'.find p = .error (.eval (.incomparableKeys a b))) ∨
        ∃ t t', (g.find p = .ok t ∧ t.names = g.resultLabels p) ∧
          (g'.find p = .ok t' ∧ t'.names = g'.resultLabels p) ∧
            ((p.isEmpty = true ∧ t.rows = [] ∧ t'.rows = []) ∨
              ∃ r o, g.Outlined p plan r o ∧ g'.Outlined p plan' r o ∧
                (t.rows = (g.frame o).rows.map fun row =>
                  t.names.map (shownCell r.bindings (g.frame o) row)) ∧
                t'.rows = (g'.frame o).rows.map fun row =>
                  t'.names.map (shownCell r.bindings (g'.frame o) row)) := by
  cases hempty : p.isEmpty with
  | true =>
    obtain ⟨t, hfind, hnames, hrows⟩ := find_of_isEmpty hplan hempty
    obtain ⟨t', hfind', hnames', hrows'⟩ := find_of_isEmpty hplan' hempty
    exact .inr (.inr ⟨t, t', ⟨hfind, hnames⟩, ⟨hfind', hnames'⟩, .inl ⟨rfl, hrows, hrows'⟩⟩)
  | false =>
    obtain ⟨r, o, h⟩ := exists_outlined hplan hempty
    obtain ⟨r', o', h'⟩ := exists_outlined hplan' hempty
    obtain ⟨rfl, rfl⟩ := h.unique h'
    rcases h.find_eq with herror | ⟨t, hfind, hnames, hrows⟩
    · exact .inl herror
    rcases h'.find_eq with herror | ⟨t', hfind', hnames', hrows'⟩
    · exact .inr (.inl herror)
    exact .inr (.inr ⟨t, t', ⟨hfind, hnames⟩, ⟨hfind', hnames'⟩,
      .inr ⟨_, _, h, h', hrows, hrows'⟩⟩)

end Graph

end GraphMotif
