import GraphMotif.Proofs.Graph.Find

/-!
# The result of a pattern

The projection of a plan shows of every assignment the rows of the names, in the order in which
these first appear. So the result of a pattern is a row for each of its occurrences.
-/

namespace GraphMotif

namespace Graph

variable {g : Graph} {p : Pattern} {scope : List Binding} {f : Frontier} {limit : Nat}
  {carried : List (Site × Binding)} {cond : Assignment → Bool} {a : Assignment}

/-! ## What is shown -/

theorem zip_map_self {α β : Type} (xs : List α) (f : α → β) :
    xs.zip (xs.map f) = xs.map fun x => (x, f x) := by
  have hzip := List.zip_map' (f := id) (g := f) (l := xs)
  rwa [List.map_id] at hzip

/-- What is shown of the visible bindings is shown of the elements of the pattern. -/
theorem flatMap_visible {α : Type} (hshown : shownSites scope = p.sites.filter Site.isNamed)
    {shown : Site → List α} (hnameless : ∀ s, s.isNamed = false → shown s = []) :
    (scope.filter Binding.visible).flatMap (fun b => shown (b.site 0)) =
      p.sites.flatMap shown := by
  have hmap : (scope.filter Binding.visible).flatMap (fun b => shown (b.site 0)) =
      (shownSites scope).flatMap shown := by
    rw [shownSites, List.flatMap_map]
  rw [hmap, hshown, flatMap_filter]
  refine List.flatMap_congr fun s _ => ?_
  split
  · rfl
  · next h => exact (hnameless s (Bool.eq_false_iff.2 h)).symm

/-- The columns of the bundles are those of the names. -/
theorem labels_project (child : Plan) (hshown : shownSites scope = p.sites.filter Site.isNamed) :
    (Plan.project child ((scope.filter Binding.visible).map g.schema.bundle)).labels =
      g.resultLabels p := by
  rw [Plan.labels, List.flatMap_map, resultLabels, ← flatMap_visible hshown]
  · refine List.flatMap_congr fun b hb => ?_
    obtain ⟨name, hname⟩ := Option.isSome_iff_exists.1 (List.mem_filter.1 hb).2
    have houtput : b.outputName = name := by rw [Binding.outputName, hname, Option.getD_some]
    rw [Schema.bundle, Schema.tagged, houtput, Binding.site_of_name hname, shownLabels,
      zip_map_self, List.map_map]
    rfl
  · intro s hs
    cases s with
    | named => cases hs
    | nameless => rfl

/-- The row of an assignment is shown as the rows of the names. -/
theorem row_project {plan : Plan} (h : g.Denotes p (tagOf carried) plan (carried.map Prod.fst) cond)
    (hsited : Sited scope limit carried) (hnamed : CarriesNamed scope (carried.map Prod.snd))
    (hshown : shownSites scope = p.sites.filter Site.isNamed)
    (ha : a ∈ g.assignments (carried.map Prod.fst)) :
    (((scope.filter Binding.visible).map g.schema.bundle).flatMap fun o =>
      (o.attributes.zip o.columns).map fun x =>
        (plan.frame g.relations).cell ((carried.map Prod.fst).flatMap a) x.2) =
      p.sites.flatMap (Site.shownRow a) := by
  rw [List.flatMap_map, ← flatMap_visible hshown]
  · refine List.flatMap_congr fun b hb => ?_
    obtain ⟨hmem, hvisible⟩ := List.mem_filter.1 hb
    obtain ⟨name, hname⟩ := Option.isSome_iff_exists.1 hvisible
    -- the frontier carries every name in scope, so its element has a block in the row
    have hcarried := hsited.mem_of_binding hname (hnamed b hmem hvisible)
    have hs : Site.named b.kind name ∈ carried.map Prod.fst :=
      List.mem_map_of_mem (f := Prod.fst) hcarried
    rw [Schema.bundle, Schema.tagged, Binding.site_of_name hname, Site.shownRow, zip_map_self,
      List.map_map, columns_eq]
    refine (List.map_congr_left fun column hcolumn => ?_).trans
      (Table.map_cellAt_names (g.nodup_names b.kind) (g.mem_rows_of_mem_assignments ha _ hs))
    rw [Function.comp_apply, ← hsited.tagOf_eq hcarried]
    exact h.tabulates.cell_eq hsited.tagging ha hs hcolumn
  · intro s hs
    cases s with
    | named => cases hs
    | nameless => rfl

theorem Reached.shown_eq {f? : Option Frontier} (h : g.Reached p p.clauses scope f? carried) :
    shownSites scope = p.sites.filter Site.isNamed := by
  rw [h.shown, p.sites_eq, filter_eraseDups]

/-- The rows of the result are those of the occurrences. -/
theorem Reached.resultRows_perm (h : g.Reached p p.clauses scope (some f) carried)
    (hne : p.isEmpty = false) :
    ((Plan.project f.plan ((scope.filter Binding.visible).map g.schema.bundle)).resultRows
      g.relations).Perm (g.occurrences p) := by
  have hfinds : g.Finds p scope p.clauses.length f carried (g.satisfiesAll p.clauses) := h.finds
  have hsites : (carried.map Prod.fst).Perm p.sites :=
    (List.perm_ext_iff_of_nodup hfinds.sited.nodup_sites p.nodup_sites).2 fun s => by
      rw [h.mem_sites, p.sites_eq, List.mem_eraseDups]
  have hrows : (Plan.project f.plan ((scope.filter Binding.visible).map g.schema.bundle)).resultRows
      g.relations = ((g.assignments (carried.map Prod.fst)).filter (g.satisfiesAll p.clauses)).map
        fun a => p.sites.flatMap (Site.shownRow a) := by
    rw [Plan.resultRows, hfinds.denotes.tabulates.rows, List.map_map]
    refine List.map_congr_left fun a ha => ?_
    exact row_project hfinds.denotes hfinds.sited h.named h.shown_eq (List.mem_filter.1 ha).1
  rw [hrows, occurrences, if_neg (Bool.eq_false_iff.1 hne)]
  exact ((g.assignments_perm hsites).filter _).map _

/-! ## The result -/

/-- The plan of a pattern with clauses projects, to the bundles of the names in scope, what its
clauses have reached. -/
theorem exists_reached {plan : MatchPlan} (hplan : g.compile p = .ok plan) (hsteady : g.SteadyKeys p)
    (hne : p.isEmpty = false) :
    ∃ r f carried, p.resolve = .ok r ∧ g.schema.addClauses none 0 r.clauses = .ok (some f) ∧
      g.Reached p p.clauses r.bindings (some f) carried ∧ plan.child = f.plan ∧
        plan.outputs = (r.bindings.filter Binding.visible).map g.schema.bundle := by
  obtain ⟨r, hr, hcompile⟩ := bind_eq_ok_iff.1 hplan
  have hr : p.resolve = .ok r := by
    cases hresolve : p.resolve with
    | error e =>
      rw [hresolve] at hr
      exact absurd hr nofun
    | ok r' =>
      rw [hresolve] at hr
      rw [Except.ok.inj hr]
  obtain ⟨clauses, bindings, hok, -, rfl⟩ := Pattern.resolve_eq_ok_iff.1 hr
  obtain ⟨f, hadds, hchild, houtputs, -⟩ := Schema.exists_frontier_of_compile hne hcompile
  obtain ⟨carried, hreached⟩ := Reached.start.addClauses hsteady (fun _ hc => hc) hok hadds
  rw [List.nil_append] at hreached
  have hfinds : g.Finds p bindings p.clauses.length f carried (g.satisfiesAll p.clauses) :=
    hreached.finds
  -- the outputs are the bundles of the names in scope
  have heq := Except.ok.inj (houtputs.symm.trans (hfinds.carries.outputs_eq hreached.named))
  exact ⟨_, f, carried, hr, hadds, hreached, hchild, heq⟩

/-- The pattern without clauses has the plan without rows. -/
theorem eq_of_compile_of_isEmpty {plan : MatchPlan} (hplan : g.compile p = .ok plan)
    (hempty : p.isEmpty = true) : plan = { child := .empty [], outputs := [], pattern := p.toText } := by
  cases p with
  | mk clauses =>
    obtain rfl : clauses = [] := List.isEmpty_iff.1 hempty
    exact (Except.ok.inj hplan).symm

/-- The plan of a pattern over a graph is relational below its projection, checked, and supplied by
the tables of the graph; it announces the columns of the names, and its rows are the occurrences. -/
theorem compile_spec {plan : MatchPlan} (hplan : g.compile p = .ok plan)
    (hsteady : g.SteadyKeys p) :
    plan.child.Relational ∧ g.relations.Supply plan.root ∧ plan.root.check = .ok () ∧
      plan.root.labels = g.resultLabels p ∧
        (plan.root.resultRows g.relations).Perm (g.occurrences p) := by
  have hcheck := Schema.check_of_compilePattern hplan
  cases hempty : p.isEmpty with
  | true =>
    obtain rfl := eq_of_compile_of_isEmpty hplan hempty
    have hclauses : p.clauses = [] := List.isEmpty_iff.1 hempty
    -- the plan without rows scans nothing, and nothing is announced
    refine ⟨trivial, fun element tag columns hscan => ?_, hcheck, ?_, ?_⟩
    · simp [MatchPlan.root, Plan.walk] at hscan
    · rw [resultLabels, Pattern.sites, hclauses]
      rfl
    · rw [occurrences, if_pos hempty]
      rfl
  | false =>
    obtain ⟨r, f, carried, -, -, hreached, hchild, houtputs⟩ := exists_reached hplan hsteady hempty
    have hfinds : g.Finds p r.bindings p.clauses.length f carried (g.satisfiesAll p.clauses) :=
      hreached.finds
    have hroot : plan.root = .project f.plan
        ((r.bindings.filter Binding.visible).map g.schema.bundle) := by
      rw [MatchPlan.root, hchild, houtputs]
    refine ⟨hchild ▸ hfinds.denotes.relational, ?_, hcheck, ?_, ?_⟩
    · rw [hroot]
      exact fun element tag columns hscan => hfinds.denotes.supply element tag columns
        ((List.mem_cons.1 hscan).resolve_left (by rintro ⟨⟩))
    · rw [hroot]
      exact labels_project f.plan hreached.shown_eq
    · rw [hroot]
      exact hreached.resultRows_perm hempty

/-- Finding a pattern evaluates its plan: it stops exactly if the plan has to match numbers with
texts; otherwise it gives what the plan announces, and the rows of the nested loops. -/
theorem find_eq_resultRows {plan : MatchPlan} (hplan : g.compile p = .ok plan)
    (hrelational : plan.child.Relational) (hsupply : g.relations.Supply plan.root)
    (hcheck : plan.root.check = .ok ()) :
    (plan.root.Clashes g.relations ∧
        ∃ a b, g.find p = .error (.eval (.incomparableKeys a b))) ∨
      (¬plan.root.Clashes g.relations ∧ ∃ t, g.find p = .ok t ∧ t.names = plan.root.labels ∧
        t.rows = plan.root.resultRows g.relations) := by
  have hfind : g.find p = (plan.root.eval g.relations).mapError .eval := by
    rw [find, hplan]
    rfl
  rw [hfind, MatchPlan.root, Plan.clashes_project]
  rcases Plan.eval_project hrelational hsupply hcheck with ⟨hclash, a, b, heval⟩ |
    ⟨hclash, t, heval, hnames, hrows⟩
  · refine .inl ⟨hclash, a, b, ?_⟩
    rw [heval]
    rfl
  · refine .inr ⟨hclash, t, ?_, hnames, hrows⟩
    rw [heval]
    rfl

/-- Where identities and ends are all stored as numbers, no match makes their columns mixed. -/
theorem steadyKeys_of_isNumeric (hid : (g.vertices.kindAt idColumn).isNumeric = true)
    (hends : ∀ side ∈ [srcColumn, dstColumn], (g.edges.kindAt side).isNumeric = true) (p : Pattern) :
    g.SteadyKeys p :=
  fun _ => .inl fun _ hend h => h.2 ⟨hid, hends _ (Pattern.side_mem hend)⟩

/-! ## Rounded identities -/

/-- An integer identity, and an edge whose ends are the binary64 number next to it. -/
def roundedGraph : Graph where
  vertices := .ofColumns [(idColumn, { kind := .int, cells := [.int (2 ^ 53 + 1)] })]
  edges := .ofColumns [(srcColumn, { kind := .float, cells := [.float (.ofInt (2 ^ 53))] }),
    (dstColumn, { kind := .float, cells := [.float (.ofInt (2 ^ 53))] })]
  nodup_vertices := by decide +kernel
  nodup_edges := by decide +kernel
  id_mem := by decide +kernel
  src_mem := by decide +kernel
  dst_mem := by decide +kernel
  id_not_null := by decide +kernel
  nodup_id := by decide +kernel

/-- The same vertex, and an edge that ends at it in a mixed column. -/
def retypedGraph : Graph where
  vertices := .ofColumns [(idColumn, { kind := .int, cells := [.int (2 ^ 53 + 1)] })]
  edges := .ofColumns [(srcColumn, { kind := .float, cells := [.float (.ofInt (2 ^ 53))] }),
    (dstColumn, { kind := .mixed, cells := [.int (2 ^ 53 + 1)] })]
  nodup_vertices := by decide +kernel
  nodup_edges := by decide +kernel
  id_mem := by decide +kernel
  src_mem := by decide +kernel
  dst_mem := by decide +kernel
  id_not_null := by decide +kernel
  nodup_id := by decide +kernel

/-- The clause of a vertex where an edge starts. -/
def startClause : Clause := .edge { src := some "a", edge := none, dst := none, negated := false }

/-- The clause of a vertex where an edge ends. -/
def endClause : Clause := .edge { src := none, edge := none, dst := some "a", negated := false }

/-- The pattern of a vertex where an edge starts. -/
def startPattern : Pattern := { clauses := [startClause] }

/-- The plan of a vertex where an edge starts. -/
def startPlan : MatchPlan where
  child := .join (.scan .edge "e1" [srcColumn, dstColumn]) (.scan .vertex "v0" [idColumn])
    [{ left := qualified "e1" srcColumn, right := qualified "v0" idColumn }]
  outputs := [{ name := "a", attributes := [idColumn], columns := [qualified "v0" idColumn] }]
  pattern := "(a)-[]->()"

theorem compile_startPattern : roundedGraph.compile startPattern = .ok startPlan := by
  decide +kernel

theorem steadyKeys_roundedGraph (p : Pattern) : roundedGraph.SteadyKeys p :=
  steadyKeys_of_isNumeric (by decide +kernel) (by decide +kernel) p

/-- The number of rows that are found. -/
def foundRows (g : Graph) (clauses : List Clause) : Option Nat :=
  (g.find { clauses }).toOption.map (·.rows.length)

end Graph

end GraphMotif
