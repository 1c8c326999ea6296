import GraphMotif.Graph.Filter
import GraphMotif.Proofs.Graph.Narrow
import GraphMotif.Proofs.Graph.Outlined
import GraphMotif.Proofs.Predicate.Evaluation

/-!
# Filtering before and after matching

Filtering the vertices or the edges of a graph and then matching finds the matches whose bundles of
that kind pass the filter. A bundle is read as rows of its relation: a match may make a column of
the result mixed, and then an integer in it is no longer rounded where it is compared with a
binary64 number.
-/

namespace GraphMotif

namespace Table

theorem marked_map_map {α β : Type} (xs : List α) (f : α → β) (m : α → Bool) :
    marked (xs.map f) (xs.map m) = (xs.filter m).map f := by
  rw [marked, List.zip_map', List.filter_map, List.map_map]
  rfl

/-- Keeping the rows on which a test holds. -/
theorem keep_map {ν : Type} (t : Table ν) (keep : Row → Bool) :
    t.keep (t.rows.map keep) = t.filterRows keep := by
  have hrows : marked t.rows (t.rows.map keep) = t.rows.filter keep := by
    have hmap := marked_map_map t.rows id keep
    rwa [List.map_id, List.map_id] at hmap
  simp only [Table.keep, hrows]
  rfl

/-- The bundle of a name in a result, as a table of its attributes. -/
def bundle (t : Table Label) (columns : List String) (name : String) : Table String :=
  t.renamed (columns.map fun column => (column, Label.bundled name column))

end Table

/-! ## Graphs of marked elements -/

/-- Where the marks say on which vertices a test holds, the graph with the marked ones is narrowed
to these. -/
theorem Graph.narrows_keepVertices {g : Graph} {keep : Row → Bool} {marks : List Bool}
    (h : marks = g.vertices.rows.map keep) : (g.keepVertices marks).Narrows g .vertex keep where
  same kind hkind := by
    cases kind with
    | vertex => exact absurd rfl hkind
    | edge => rfl
  fewer := by
    rw [h]
    exact Table.keep_map g.vertices keep

theorem Graph.narrows_keepEdges {g : Graph} {keep : Row → Bool} {marks : List Bool}
    (h : marks = g.edges.rows.map keep) : (g.keepEdges marks).Narrows g .edge keep where
  same kind hkind := by
    cases kind with
    | vertex => rfl
    | edge => exact absurd rfl hkind
  fewer := by
    rw [h]
    exact Table.keep_map g.edges keep

/-! ## Bundles -/

/-- The visible names of a kind of elements. -/
def Pattern.shownNames (p : Pattern) (kind : Element) : List String :=
  p.sites.filterMap fun s =>
    match s with
    | .named kind' name => if kind' = kind then some name else none
    | .nameless .. => none

theorem Pattern.mem_shownNames {p : Pattern} {kind : Element} {name : String} :
    name ∈ p.shownNames kind ↔ Site.named kind name ∈ p.sites := by
  rw [shownNames, List.mem_filterMap]
  constructor
  · rintro ⟨s, hs, hname⟩
    cases s with
    | named kind' name' =>
      simp only [Option.ite_none_right_eq_some, Option.some.injEq] at hname
      obtain ⟨rfl, rfl⟩ := hname
      exact hs
    | nameless => exact absurd hname nofun
  · exact fun hs => ⟨_, hs, if_pos rfl⟩

namespace Graph

/-- The bundle of a name in a result, stored as the relation of its kind. -/
def bundle (g : Graph) (kind : Element) (t : Table Label) (name : String) : Table String where
  headings := (g.relations.table kind).headings
  rows := (t.bundle (g.relations.table kind).names name).rows
  rectangular row hrow := by
    rw [(t.bundle (g.relations.table kind).names name).rectangular row hrow, ← Table.length_names,
      ← Table.length_names, Table.bundle, Table.names_renamed, List.map_map]
    exact congrArg List.length (List.map_id _)

/-- Marks the rows of a result on which a predicate is true for the bundles of all names. -/
def bundlesMask (g : Graph) (q : Predicate) (kind : Element) (t : Table Label) :
    List String → Except PredicateError (List Bool)
  | [] => .ok (t.rows.map fun _ => true)
  | name :: names => do
    let marks ← q.mask (g.bundle kind t name)
    let others ← g.bundlesMask q kind t names
    return List.zipWith Bool.and marks others

/-- Matching in a filtered graph finds the matches in the whole graph whose bundles of a kind all
pass the filter, unless the pattern is refused in both or one of the searches stops for keys that
cannot be compared. -/
def FindsPassing (g g' : Graph) (q : Predicate) (kind : Element) (p : Pattern) : Prop :=
  (∃ e, g.find p = .error (.compile e) ∧ g'.find p = .error (.compile e)) ∨
    (∃ a b, g.find p = .error (.eval (.incomparableKeys a b))) ∨
      (∃ a b, g'.find p = .error (.eval (.incomparableKeys a b))) ∨
        ∃ t t' marks, g.find p = .ok t ∧ g'.find p = .ok t' ∧ t'.names = t.names ∧
          g.bundlesMask q kind t (p.shownNames kind) = .ok marks ∧
            t'.rows.Perm (t.keep marks).rows

variable {g g' : Graph} {kind : Element} {q : Predicate} {p : Pattern} {plan : MatchPlan}
  {r : Resolution} {o : Outline} {t : Table Label} {name : String}

theorem bundlesMask_eq {rows : List Row} {pass : String → Row → Bool} {names : List String}
    (hsize : t.rows.length = rows.length)
    (h : ∀ name ∈ names, q.mask (g.bundle kind t name) = .ok (rows.map (pass name))) :
    g.bundlesMask q kind t names = .ok (rows.map fun row => names.all (pass · row)) := by
  induction names with
  | nil =>
    show Except.ok (t.rows.map fun _ => true) = .ok (rows.map fun _ => true)
    rw [List.map_const', List.map_const', hsize]
  | cons name names ih =>
    obtain ⟨hname, hnames⟩ := List.forall_mem_cons.1 h
    rw [bundlesMask, hname, ih hnames]
    show Except.ok (List.zipWith Bool.and _ _) = _
    rw [List.zipWith_map, List.zipWith_self]
    rfl

/-- What a row of a frame shows of a name. -/
def shownPart (g : Graph) (kind : Element) (scope : List Binding) (f : Frame) (row : Row)
    (name : String) : Row :=
  (g.relations.table kind).names.map fun column => shownCell scope f row (.bundled name column)

/-- The bundle of a visible name holds what the rows of the frame show of it. -/
theorem rows_bundle {scope : List Binding} {f : Frame} (hnames : t.names = g.resultLabels p)
    (hrows : t.rows = f.rows.map fun row => t.names.map (shownCell scope f row))
    (hs : Site.named kind name ∈ p.sites) :
    (g.bundle kind t name).rows = f.rows.map fun row => g.shownPart kind scope f row name := by
  have hlabels : ∀ x ∈ (g.relations.table kind).names.map
      (fun column => (column, Label.bundled name column)), x.2 ∈ t.names := by
    refine List.forall_mem_map.2 fun column hcolumn => ?_
    rw [hnames]
    exact mem_resultLabels.2 ⟨kind, name, hs, column, hcolumn, rfl⟩
  show (t.renamed _).rows = _
  rw [Table.rows_renamed hrows hlabels]
  refine List.map_congr_left fun row _ => ?_
  rw [List.map_map]
  rfl

namespace Outlined

variable (h : g.Outlined p plan r o)

include h

/-- What is shown of a name is the part of its binding. -/
theorem shownPart_eq {b : Binding} (hb : b ∈ o.bindings) (hname : b.name = some name) (row : Row) :
    g.shownPart b.kind r.bindings (g.frame o) row name = g.part (g.frame o) row b := by
  rw [shownPart, part, tagged_eq, List.map_map]
  exact List.map_congr_left fun column _ =>
    shownCell_eq h.isScope (h.subset b hb) hname (g.frame o) row column

/-- A predicate that can be evaluated over a relation is evaluated over a bundle row by row. -/
theorem mask_bundle (heval : q.Evaluable (g.relations.table kind))
    (hnames : t.names = g.resultLabels p)
    (hrows : t.rows = (g.frame o).rows.map fun row =>
      t.names.map (shownCell r.bindings (g.frame o) row))
    (hs : Site.named kind name ∈ p.sites) :
    q.mask (g.bundle kind t name) = .ok ((g.frame o).rows.map fun row =>
      q.trueAt (g.relations.table kind) (g.shownPart kind r.bindings (g.frame o) row name)) := by
  have hbundle := rows_bundle hnames hrows hs
  have hheadings : (g.bundle kind t name).headings = (g.relations.table kind).headings := rfl
  obtain ⟨b, hb, rfl, hname⟩ := h.exists_binding hs
  have hsub : ∀ row ∈ (g.bundle b.kind t name).rows, row ∈ (g.relations.table b.kind).rows := by
    rw [hbundle]
    refine List.forall_mem_map.2 fun row hrow => ?_
    rw [h.shownPart_eq hb hname]
    exact part_mem h.relational hb hrow
  rw [Predicate.mask_eq_of_evaluable (heval.of_subset hheadings hsub), hbundle, List.map_map]
  refine congrArg _ (List.map_congr_left fun row _ => ?_)
  exact Predicate.trueAt_congr hheadings q _

/-- Where all bindings of a kind are named, the parts of a row pass a test exactly if what it shows
of the visible names of that kind does. -/
theorem partsPass_eq (hnamed : ∀ s ∈ p.sites, s.kind = kind → s.isNamed = true)
    (keep : Row → Bool) (row : Row) :
    g.partsPass kind keep o.bindings (g.frame o) row = (p.shownNames kind).all fun name =>
      keep (g.shownPart kind r.bindings (g.frame o) row name) := by
  rw [Bool.eq_iff_iff, partsPass, List.all_eq_true, List.all_eq_true]
  constructor
  · intro hparts name hname
    obtain ⟨b, hb, rfl, hbname⟩ := h.exists_binding (Pattern.mem_shownNames.1 hname)
    have hpass := hparts b hb
    rwa [bne_self_eq_false, Bool.false_or, ← h.shownPart_eq hb hbname] at hpass
  · intro hshown b hb
    by_cases hkind : b.kind = kind
    · subst hkind
      obtain ⟨clause, hsite⟩ := h.sited b hb
      cases hname : b.name with
      | none =>
        have hnameless := hnamed _ hsite (b.kind_site clause)
        rw [Binding.site_of_nameless hname] at hnameless
        cases hnameless
      | some name =>
        have hpass := hshown name (Pattern.mem_shownNames.2 (h.named_mem_sites hb hname))
        rwa [bne_self_eq_false, Bool.false_or, ← h.shownPart_eq hb hname]
    · rw [bne_iff_ne.2 hkind, Bool.true_or]

end Outlined

/-- Keeping the rows of a result in which all bundles of a kind pass a test leaves what is shown of
the rows of the frame whose parts of that kind pass. -/
theorem Outlined.rows_keep (h : g.Outlined p plan r o)
    (hnamed : ∀ s ∈ p.sites, s.kind = kind → s.isNamed = true) (keep : Row → Bool)
    (hrows : t.rows = (g.frame o).rows.map fun row =>
      t.names.map (shownCell r.bindings (g.frame o) row)) :
    (t.keep ((g.frame o).rows.map fun row => (p.shownNames kind).all fun name =>
        keep (g.shownPart kind r.bindings (g.frame o) row name))).rows =
      ((g.frame o).rows.filter (g.partsPass kind keep o.bindings (g.frame o))).map fun row =>
        t.names.map (shownCell r.bindings (g.frame o) row) := by
  show Table.marked t.rows _ = _
  rw [hrows, Table.marked_map_map, List.filter_congr fun row _ => h.partsPass_eq hnamed keep row]

/-- Narrowing does not change what a pattern is compiled to. -/
theorem Narrows.compile_eq {keep : Row → Bool} (h : g'.Narrows g kind keep) (p : Pattern) :
    g'.compile p = g.compile p := by
  rw [compile, compile, h.schema_eq]

namespace Narrows

variable (h : g'.Narrows g kind (q.trueAt (g.relations.table kind)))

include h

/-- Where the graph is narrowed to the elements of a kind on which a predicate is true, and the
pattern names all elements of that kind that it asks for, the matches that are left are those whose
bundles pass. -/
theorem bundlesMask_of_outlined {t' : Table Label} (heval : q.Evaluable (g.relations.table kind))
    (houtlined : g.Outlined p plan r o)
    (hpositive : kind = .edge → ∀ c ∈ p.clauses, c.negated = false)
    (hnamed : ∀ s ∈ p.sites, s.kind = kind → s.isNamed = true)
    (hnames : t.names = g.resultLabels p) (hlabels : t'.names = t.names)
    (hrows : t.rows = (g.frame o).rows.map fun row =>
      t.names.map (shownCell r.bindings (g.frame o) row))
    (hrows' : t'.rows = (g'.frame o).rows.map fun row =>
      t'.names.map (shownCell r.bindings (g'.frame o) row)) :
    ∃ marks, g.bundlesMask q kind t (p.shownNames kind) = .ok marks ∧
      t'.rows = (t.keep marks).rows := by
  have hframe := h.frame_eq houtlined.relational fun hkind => houtlined.positive (hpositive hkind)
  have hsize : t.rows.length = (g.frame o).rows.length := by rw [hrows, List.length_map]
  refine ⟨_, bundlesMask_eq hsize fun name (hname : name ∈ p.shownNames kind) =>
    houtlined.mask_bundle heval hnames hrows (Pattern.mem_shownNames.1 hname), ?_⟩
  rw [houtlined.rows_keep hnamed _ hrows, hrows', hframe, hlabels]
  rfl

theorem findsPassing (heval : q.Evaluable (g.relations.table kind))
    (hpositive : kind = .edge → ∀ c ∈ p.clauses, c.negated = false)
    (hnamed : ∀ s ∈ p.sites, s.kind = kind → s.isNamed = true) :
    g.FindsPassing g' q kind p := by
  cases hcompile : g.compile p with
  | error e =>
    exact .inl ⟨e, find_eq_error_of_compile hcompile,
      find_eq_error_of_compile ((h.compile_eq p).trans hcompile)⟩
  | ok plan =>
    refine .inr ((find_both hcompile ((h.compile_eq p).trans hcompile)).imp_right (.imp_right ?_))
    rintro ⟨t, t', ⟨hfind, hnames⟩, ⟨hfind', hnames'⟩, hrows⟩
    have hlabels : t'.names = t.names := by rw [hnames', hnames, h.resultLabels_eq]
    rcases hrows with ⟨hempty, hrows, hrows'⟩ | ⟨r, o, houtlined, -, hrows, hrows'⟩
    · refine ⟨t, t', [], hfind, hfind', hlabels, ?_, ?_⟩
      · rw [Pattern.shownNames, Pattern.sites, List.isEmpty_iff.1 hempty]
        show Except.ok (t.rows.map _) = _
        rw [hrows]
        rfl
      · show t'.rows.Perm (Table.marked t.rows [])
        rw [hrows', hrows]
        exact .nil
    · obtain ⟨marks, hmask, hkept⟩ :=
        h.bundlesMask_of_outlined heval houtlined hpositive hnamed hnames hlabels hrows hrows'
      exact ⟨t, t', marks, hfind, hfind', hlabels, hmask, .of_eq hkept⟩

end Narrows

/-! ## Filters -/

/-- A filter of vertices succeeds when its predicate can be evaluated over them, and then leaves
those on which it is true. -/
theorem filterVertices_succeeds (g : Graph) (q : Predicate) :
    SucceedsIff (g.filterVertices q) (q.Evaluable g.vertices)
      fun g' => g'.Narrows g .vertex (q.trueAt g.vertices) :=
  (q.mask_succeeds g.vertices).map fun _ => narrows_keepVertices

theorem filterEdges_succeeds (g : Graph) (q : Predicate) :
    SucceedsIff (g.filterEdges q) (q.Evaluable g.edges)
      fun g' => g'.Narrows g .edge (q.trueAt g.edges) :=
  (q.mask_succeeds g.edges).map fun _ => narrows_keepEdges

theorem narrows_of_filterVertices (h : g.filterVertices q = .ok g') :
    q.Evaluable g.vertices ∧ g'.Narrows g .vertex (q.trueAt g.vertices) :=
  (filterVertices_succeeds g q).of_ok h

theorem narrows_of_filterEdges (h : g.filterEdges q = .ok g') :
    q.Evaluable g.edges ∧ g'.Narrows g .edge (q.trueAt g.edges) :=
  (filterEdges_succeeds g q).of_ok h

/-- A pattern asks for a nameless element where a vertex clause or a positive edge clause leaves its
own name out. -/
theorem nameless_of_mem_sites {s : Site} (hs : s ∈ p.sites) (hnameless : s.isNamed = false) :
    (s.kind = .vertex ∧ Clause.vertex none ∈ p.clauses) ∨
      ∃ e, s.kind = .edge ∧ Clause.edge e ∈ p.clauses ∧ e.edge = none := by
  rw [p.sites_eq, List.mem_eraseDups] at hs
  obtain ⟨⟨c, index⟩, hc, hs⟩ := List.mem_flatMap.1 hs
  have hc : c ∈ p.clauses := List.fst_mem_of_mem_zipIdx hc
  have hends {slot : Slot} (hs : s ∈ slot.toList.map (Site.named .vertex)) : False := by
    obtain ⟨name, -, rfl⟩ := List.mem_map.1 hs
    cases hnameless
  cases c with
  | vertex slot =>
    obtain rfl := List.mem_singleton.1 hs
    cases slot with
    | some name => cases hnameless
    | none => exact .inl ⟨rfl, hc⟩
  | edge e =>
    simp only [Clause.sites] at hs
    split at hs
    · exact absurd hs List.not_mem_nil
    · rcases List.mem_append.1 hs with hs | hs
      · exact (hends hs).elim
      · rcases List.mem_cons.1 hs with rfl | hs
        · cases hslot : e.edge with
          | some name =>
            rw [hslot] at hnameless
            cases hnameless
          | none => exact .inr ⟨e, rfl, hc, hslot⟩
        · exact (hends hs).elim

/-- A vertex whose weight is the binary64 number next to its identity, and an edge with ends in
mixed columns. -/
def weightedGraph : Graph where
  vertices := .ofColumns [(idColumn, { kind := .int, cells := [.int (2 ^ 53 + 1)] }),
    ("weight", { kind := .float, cells := [.float (.ofInt (2 ^ 53))] })]
  edges := .ofColumns [(srcColumn, { kind := .mixed, cells := [.int (2 ^ 53 + 1)] }),
    (dstColumn, { kind := .mixed, cells := [.int (2 ^ 53 + 1)] })]
  nodup_vertices := by decide +kernel
  nodup_edges := by decide +kernel
  id_mem := by decide +kernel
  src_mem := by decide +kernel
  dst_mem := by decide +kernel
  id_not_null := by decide +kernel
  nodup_id := by decide +kernel

/-- The predicate that two columns are equal. -/
def equalColumns (left right : String) : Predicate := .compare .eq (.column left) (.column right)

/-- The pattern of a vertex, and of a named edge that starts at it. -/
def leavingPattern : Pattern where
  clauses := [.vertex (some "a"),
    .edge { src := some "a", edge := some "e", dst := none, negated := false }]

theorem filterVertices_weightedGraph : weightedGraph.filterVertices (equalColumns idColumn "weight") =
    .ok (weightedGraph.keepVertices [true]) := by
  have hmask : (equalColumns idColumn "weight").mask weightedGraph.vertices = .ok [true] := by
    decide +kernel
  rw [filterVertices, hmask]
  rfl

theorem filterEdges_weightedGraph : weightedGraph.filterEdges (equalColumns srcColumn dstColumn) =
    .ok (weightedGraph.keepEdges [true]) := by
  have hmask : (equalColumns srcColumn dstColumn).mask weightedGraph.edges = .ok [true] := by
    decide +kernel
  rw [filterEdges, hmask]
  rfl

end Graph

end GraphMotif
