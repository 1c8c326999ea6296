import GraphMotif.Proofs.Graph.Ends
import GraphMotif.Proofs.Graph.Renaming

/-!
# How results store names

A result is projected from the frame of its outline. So it shows the columns of a name with the
cells that the frame has for the binding of the name, and stores them as the frame does: as in the
relation, or mixed where matches have made them so. With steady keys, the parts of a row that have
names are those of an assignment that satisfies the clauses.
-/

namespace GraphMotif

/-- A binding in scope that stands for a name of a kind. -/
structure StandsFor (bs : List Binding) (kind : Element) (name : String) (b : Binding) : Prop where
  mem : b ∈ bs
  kind_eq : b.kind = kind
  name_eq : b.name = some name

/-- The item at the position of a label is that of an entry with the label. -/
theorem exists_getElem?_map_idxOf {α β γ : Type} [DecidableEq β] {xs : List α} {label : α → β}
    {b : β} (hb : b ∈ xs.map label) (item : α → γ) :
    ∃ a ∈ xs, label a = b ∧ (xs.map item)[(xs.map label).idxOf b]? = some (item a) := by
  have hlt := List.idxOf_lt_length_of_mem hb
  have hlt' : (xs.map label).idxOf b < xs.length := by rwa [List.length_map] at hlt
  refine ⟨xs[(xs.map label).idxOf b], List.getElem_mem hlt', ?_, ?_⟩
  · rw [← List.getElem_map label (h := hlt), List.getElem_idxOf]
  · rw [List.getElem?_map, List.getElem?_eq_getElem hlt', Option.map_some]

theorem exists_mem_zipIdx {α : Type} {xs : List α} {x : α} (hx : x ∈ xs) :
    ∃ index, (x, index) ∈ xs.zipIdx := by
  obtain ⟨index, hget⟩ := List.mem_iff_getElem?.1 hx
  exact ⟨index, List.mk_mem_zipIdx_iff_getElem?.2 hget⟩

namespace Table

/-- The cell of a row under a label. -/
def cellUnder (t : Table Label) (row : Row) (label : Label) : Value :=
  row.cell (t.names.idxOf label)

/-- How the column under a label is stored. -/
def kindUnder (t : Table Label) (label : Label) : ColumnKind :=
  (t.columnAt (t.names.idxOf label)).kind

theorem names_pick {ν μ : Type} (t : Table ν) (columns : List (μ × Nat)) :
    (t.pick columns).names = columns.map Prod.fst := by
  rw [names, pick, List.map_map]
  rfl

/-- A projection of a table with rows keeps how its columns are stored. -/
theorem Realizes.kindUnder_projectTo {t t' : Table Label} {f : Frame} {outputs : List Output}
    (h : t.Realizes f) (hrows : f.rows ≠ [])
    (hcolumns : ∀ o ∈ outputs, ∀ column ∈ o.columns, column ∈ f.names)
    (hok : t.projectTo outputs = .ok t') {label : Label} (hlabel : label ∈ t'.names) :
    ∃ o ∈ outputs, ∃ x ∈ o.attributes.zip o.columns,
      .bundled o.name x.1 = label ∧ t'.kindUnder label = f.kind x.2 := by
  have hpicks : (outputItems outputs).mapM t.outputPick = .ok ((outputItems outputs).map
      fun item => (.bundled item.1 item.2.1, f.names.idxOf item.2.2)) := by
    refine mapM_eq_ok_map fun item hitem => ?_
    obtain ⟨o, ho, hitem⟩ := List.mem_flatMap.1 hitem
    obtain ⟨x, hx, rfl⟩ := List.mem_map.1 hitem
    rw [outputPick, h.plainColumn_eq (hcolumns o ho _ (List.of_mem_zip hx).2)]
    rfl
  rw [Table.projectTo_eq, hpicks] at hok
  obtain rfl := Except.ok.inj hok
  rw [names_pick, List.map_map] at hlabel
  obtain ⟨item, hitem, hlabel', hget⟩ := exists_getElem?_map_idxOf hlabel
    fun item => (t.columnAt (f.names.idxOf item.2.2)).kind
  obtain ⟨o, ho, hitem⟩ := List.mem_flatMap.1 hitem
  obtain ⟨x, hx, rfl⟩ := List.mem_map.1 hitem
  refine ⟨o, ho, x, hx, hlabel', ?_⟩
  rw [kindUnder, kind_columnAt, names_pick, List.map_map, ← List.getElem?_map, pick, List.map_map,
    List.map_map]
  refine (congrArg (Option.getD · ColumnKind.mixed) hget).trans ?_
  exact h.kind hrows _ (hcolumns o ho _ (List.of_mem_zip hx).2)

end Table

namespace Graph.Outlined

variable {g : Graph} {p : Pattern} {plan : MatchPlan} {r : Resolution} {o : Outline}
  {t : Table Label} {b : Binding} {row : Row} {kind : Element} {name column : String} (h : g.Outlined p plan r o)

include h

theorem part_mem_of_standsFor (hb : StandsFor r.bindings kind name b)
    (hrow : row ∈ (g.frame o).rows) :
    g.part (g.frame o) row b ∈ (g.relations.table kind).rows := by
  obtain ⟨hmem, rfl, hname⟩ := hb
  exact part_mem h.relational (h.named b hmem (hname ▸ rfl)) hrow

/-! ## Labels -/

/-- The columns of a name are in the result. -/
theorem label_mem (hnames : t.names = g.resultLabels p) (hb : StandsFor r.bindings kind name b)
    (hcolumn : column ∈ (g.relations.table kind).names) : .bundled name column ∈ t.names := by
  obtain ⟨hmem, rfl, hname⟩ := hb
  rw [hnames]
  exact mem_resultLabels.2
    ⟨b.kind, name, h.named_mem_sites (h.named b hmem (hname ▸ rfl)) hname, column, hcolumn, rfl⟩

/-- They have the cells that the frame has for the binding. -/
theorem cellUnder_eq (hb : StandsFor r.bindings kind name b)
    (hlabel : .bundled name column ∈ t.names) (row : Row) :
    t.cellUnder (t.names.map (shownCell r.bindings (g.frame o) row)) (.bundled name column) =
      (g.frame o).cell row (qualified b.column column) := by
  rw [Table.cellUnder, Row.cell_map_idxOf hlabel, shownCell_eq h.isScope hb.mem hb.name_eq]

/-- What is found is projected from a table that realizes the frame. -/
theorem exists_realizes (hfind : g.find p = .ok t) :
    ∃ t₀ : Table Label, t₀.Realizes (g.frame o) ∧ t₀.projectTo plan.outputs = .ok t := by
  have hframe : plan.child.frame g.relations = g.frame o := by
    rw [h.child]
    rfl
  have heval : g.find p = (plan.root.eval g.relations).mapError .eval := by
    rw [find, h.compiled]
    rfl
  have hsupply : g.relations.Supply plan.child :=
    Plan.Supply.of_subset h.supply fun node hnode => List.mem_cons_of_mem _ hnode
  rw [heval, mapError_eq_ok_iff, MatchPlan.root, Plan.eval, bind_eq_ok_iff] at hfind
  obtain ⟨t₀, hok, hproject⟩ := hfind
  rcases Plan.eval_yields (h.child ▸ h.relational) hsupply (h.child ▸ h.check_child) with
    ⟨-, a, b, herror⟩ | ⟨-, t₁, hok', hrealizes⟩
  · cases herror.symm.trans hok
  · obtain rfl := Except.ok.inj (hok'.symm.trans hok)
    exact ⟨t₁, hframe ▸ hrealizes, hproject⟩

/-- If there are rows, the columns of a name are stored as the frame stores those of its binding. -/
theorem kindUnder_eq (hfind : g.find p = .ok t) (hrow : row ∈ (g.frame o).rows)
    (hb : StandsFor r.bindings kind name b) (hlabel : .bundled name column ∈ t.names) :
    t.kindUnder (.bundled name column) = (g.frame o).kind (qualified b.column column) := by
  obtain ⟨t₀, hrealizes, hproject⟩ := h.exists_realizes hfind
  have hcolumns := (Plan.check_project.1 h.check).1
  rw [h.child, ← Plan.names_frame (r := g.relations) h.relational] at hcolumns
  obtain ⟨o', ho', x, hx, heq, hkind⟩ :=
    hrealizes.kindUnder_projectTo (List.ne_nil_of_mem hrow) hcolumns hproject hlabel
  rw [h.outputs] at ho'
  obtain ⟨b', hb', rfl⟩ := List.mem_map.1 ho'
  obtain ⟨hmem, hvisible⟩ := List.mem_filter.1 hb'
  obtain ⟨name', hname'⟩ := Option.isSome_iff_exists.1 hvisible
  rw [Schema.bundle, Schema.tagged, zip_map_self] at hx
  obtain ⟨column', -, rfl⟩ := List.mem_map.1 hx
  obtain ⟨houtput, rfl⟩ := Label.bundled.inj heq
  have houtput : b'.outputName = name := houtput
  rw [Binding.outputName, hname', Option.getD_some] at houtput
  -- no other binding in scope has the name
  obtain rfl :=
    h.isScope.name_inj b' hmem b hb.mem name (hname'.trans (congrArg some houtput)) hb.name_eq
  exact hkind

/-! ## Assignments -/

/-- With steady keys, the named parts of a row are those of an assignment that satisfies the
clauses, and their columns are stored in one of their ways. -/
theorem exists_assignment (hsteady : g.SteadyKeys p) (hne : p.isEmpty = false)
    (hrow : row ∈ (g.frame o).rows) :
    ∃ a, g.satisfiesAll p.clauses a = true ∧ ∀ kind name b, StandsFor r.bindings kind name b →
      g.part (g.frame o) row b = a (.named kind name) ∧
        ∀ column ∈ (g.relations.table kind).names,
          g.Stored p (.named kind name) column ((g.frame o).kind (qualified b.column column)) := by
  obtain ⟨r', f, carried, hr', -, hreached, hchild, -⟩ := exists_reached h.compiled hsteady hne
  obtain rfl := Except.ok.inj (hr'.symm.trans h.resolve)
  have hfinds : g.Finds p r'.bindings p.clauses.length f carried (g.satisfiesAll p.clauses) :=
    hreached.finds
  have htabulates := hfinds.denotes.tabulates
  have hframe : f.plan.frame g.relations = g.frame o := by
    rw [← hchild, h.child]
    rfl
  rw [hframe] at htabulates
  rw [htabulates.rows] at hrow
  obtain ⟨a, ha, rfl⟩ := List.mem_map.1 hrow
  obtain ⟨ha, hsatisfies⟩ := List.mem_filter.1 ha
  refine ⟨a, hsatisfies, ?_⟩
  rintro _ name b ⟨hb, rfl, hname⟩
  have hcarried := hfinds.sited.mem_of_binding hname (hreached.named b hb (hname ▸ rfl))
  have hs : Site.named b.kind name ∈ carried.map Prod.fst :=
    List.mem_map_of_mem (f := Prod.fst) hcarried
  have htag := hfinds.sited.tagOf_eq hcarried
  constructor
  · refine Eq.trans ?_ (Table.map_cellAt_names (g.nodup_names b.kind)
      (g.mem_rows_of_mem_assignments ha _ hs))
    rw [part, tagged_eq, List.map_map]
    refine List.map_congr_left fun column hcolumn => ?_
    rw [Function.comp_apply, ← htag]
    exact htabulates.cell_eq hfinds.sited.tagging ha hs hcolumn
  · intro column hcolumn
    rw [← htag]
    exact htabulates.stored _ hs column hcolumn

end Graph.Outlined

end GraphMotif
