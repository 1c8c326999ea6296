import GraphMotif.Proofs.Graph.Bare
import GraphMotif.Proofs.Graph.Transformations
import GraphMotif.Proofs.Predicate.Evaluation
import GraphMotif.Proofs.Value.Repetition

/-!
# Making graphs

Two tables are a graph if their columns are named by distinct texts, the reserved ones among them,
and the identities of the vertices are neither null nor repeated. The checks are made one after the
other, and each relies on those before it. The last one lists the repeated identities in order;
where texts and numbers are repeated there is no such order, and it is the listing that fails.
-/

namespace GraphMotif

/-! ## Listing values in order -/

namespace Value

variable {v w : Value} {vs : List Value}

/-- What is not null is a text or has a quantity. -/
theorem isSome_quantity? (hnull : v.isNull = false) : v.quantity?.isSome = !v.isText := by
  cases htext : v.isText with
  | true =>
    obtain ⟨s, rfl⟩ := isText_iff.1 htext
    rfl
  | false =>
    obtain ⟨q, hq⟩ := exists_quantity hnull htext
    rw [hq]
    rfl

/-- Values none of which is null have an order unless there are texts and others among them. -/
theorem sorted?_eq_none_iff (hnull : ∀ v ∈ vs, v.isNull = false) :
    sorted? vs = none ↔ (∃ v ∈ vs, v.isText = true) ∧ ∃ v ∈ vs, v.isText = false := by
  have hquantities : vs.all (·.quantity?.isSome) = vs.all fun v => !v.isText :=
    all_congr_of_mem fun v hv => isSome_quantity? (hnull v hv)
  rw [sorted?, hquantities, ite_eq_right_iff]
  simp only [reduceCtorEq, imp_false, Bool.or_eq_true, not_or, List.all_eq_true, not_forall,
    Bool.not_eq_true, Bool.not_eq_true', Bool.not_eq_false, exists_prop]
  exact and_comm

theorem perm_of_sorted? {ws : List Value} (h : sorted? vs = some ws) : ws.Perm vs := by
  rw [sorted?] at h
  split at h
  · obtain rfl := Option.some.inj h
    exact List.mergeSort_perm ..
  · cases h

/-- Texts are repeated, and so are values of another kind. -/
def RepeatUnordered (vs : List Value) : Prop :=
  (∃ v ∈ vs, v.isText = true ∧ 2 ≤ vs.countP v.same) ∧
    ∃ v ∈ vs, v.isText = false ∧ 2 ≤ vs.countP v.same

/-- The repeated values have no order if texts are repeated beside values of another kind. -/
theorem sorted?_repeatedOnce_eq_none_iff (hnull : ∀ v ∈ vs, v.isNull = false) :
    sorted? (repeatedOnce vs) = none ↔ RepeatUnordered vs := by
  have hlisted (b : Bool) : (∃ v ∈ repeatedOnce vs, v.isText = b) ↔
      ∃ v ∈ vs, v.isText = b ∧ 2 ≤ vs.countP v.same := by
    constructor
    · rintro ⟨v, hv, htext⟩
      exact ⟨v, mem_of_mem_repeatedOnce hv, htext, two_le_countP_of_mem hnull hv⟩
    · rintro ⟨v, -, htext, htwice⟩
      obtain ⟨w, hw, hsame⟩ := List.any_eq_true.1 (isIn_repeatedOnce.2 htwice)
      exact ⟨w, hw, (isText_congr (same_iff.1 hsame).2.2).symm.trans htext⟩
  rw [sorted?_eq_none_iff fun v hv => hnull v (mem_of_mem_repeatedOnce hv), hlisted, hlisted]
  rfl

end Value

/-! ## Tables by the names of their columns -/

namespace Table

variable {t : Table String} {required : List String}

/-- A table whose columns are named by texts can be handed in as such. -/
theorem exists_handedIn {t : Table Value} (htext : ∀ name ∈ t.names, name.isText = true) :
    ∃ t' : Table String, t = t'.handedIn := by
  have hname : ∀ heading ∈ t.headings, ∃ name, heading.name = .text name := by
    intro heading hheading
    exact Value.isText_iff.1 (htext _ (List.mem_map_of_mem hheading))
  choose! nameOf hnameOf using hname
  refine ⟨⟨t.headings.map fun heading => ⟨nameOf heading, heading.kind⟩, t.rows, ?_⟩,
    eq_of_headings_rows ?_ rfl⟩
  · intro row hrow
    rw [List.length_map]
    exact t.rectangular row hrow
  · show t.headings = List.map _ (List.map _ _)
    rw [List.map_map]
    refine ((List.map_congr_left fun heading hheading => ?_).trans (List.map_id _)).symm
    rw [Function.comp_apply, ← hnameOf heading hheading, id_eq]

/-- The columns of a table are named by distinct texts, the required ones among them. -/
structure HasColumns (t : Table Value) (required : List String) : Prop where
  text : ∀ name ∈ t.names, name.isText = true
  nodup : t.names.Nodup
  mem : ∀ column ∈ required, Value.text column ∈ t.names

theorem hasColumns_handedIn :
    t.handedIn.HasColumns required ↔ t.names.Nodup ∧ ∀ column ∈ required, column ∈ t.names := by
  have hinj : Function.Injective Value.text := fun _ _ => Value.text.inj
  have hmem (column : String) : Value.text column ∈ t.handedIn.names ↔ column ∈ t.names := by
    rw [names_handedIn, List.mem_map_of_injective hinj]
  constructor
  · rintro ⟨-, hnodup, hrequired⟩
    rw [names_handedIn, List.nodup_map_iff hinj] at hnodup
    exact ⟨hnodup, fun column hcolumn => (hmem column).1 (hrequired column hcolumn)⟩
  · rintro ⟨hnodup, hrequired⟩
    refine ⟨?_, ?_, fun column hcolumn => (hmem column).2 (hrequired column hcolumn)⟩
    · rw [names_handedIn, List.forall_mem_map]
      exact fun _ _ => rfl
    · rwa [names_handedIn, List.nodup_map_iff hinj]

/-- The cells of the first column that a text names. -/
def textCells (t : Table Value) (name : String) : List Value :=
  ((t.column? (.text name)).map (·.cells)).getD []

theorem textCells_handedIn (t : Table String) (name : String) :
    t.handedIn.textCells name = t.cells name := by
  have hposition : t.handedIn.position? (.text name) = t.position? name := by
    rw [position?, handedIn, List.findIdx?_map]
    refine congrArg (fun p => t.headings.findIdx? p) (funext fun heading => ?_)
    rw [Function.comp_apply, decide_eq_decide, Value.text.injEq]
  rw [textCells, cells, named, column?, column?, hposition]
  cases t.position? name <;> rfl

end Table

/-! ## What is refused -/

/-- What is handed in for the two relations is two tables with proper columns. -/
structure HasTables (source : Element → TableSource) (vertices edges : Table Value) : Prop where
  vertices_eq : source .vertex = .table vertices
  edges_eq : source .edge = .table edges
  vertex_columns : vertices.HasColumns Element.vertex.reserved
  edge_columns : edges.HasColumns Element.edge.reserved

theorem HasTables.unique {source : Element → TableSource}
    {vertices edges vertices' edges' : Table Value} (h : HasTables source vertices edges)
    (h' : HasTables source vertices' edges') :
    vertices = vertices' ∧ edges = edges' :=
  ⟨TableSource.table.inj (h.vertices_eq.symm.trans h'.vertices_eq),
    TableSource.table.inj (h.edges_eq.symm.trans h'.edges_eq)⟩

/-- Two tables are a graph. -/
structure FormGraph (source : Element → TableSource) (vertices edges : Table Value) : Prop
    extends HasTables source vertices edges where
  not_null : ∀ id ∈ vertices.textCells idColumn, id.isNull = false
  differ : (vertices.textCells idColumn).Pairwise fun id id' => id.same id' = false

/-- What an error says of the relations is so. -/
inductive GraphError.Reports (source : Element → TableSource) : GraphError → Prop
  | notTable {kind : Element} {given : Datum} (hgiven : source kind = .other given) :
    Reports source (.notTable kind given)
  | namesNotText {kind : Element} {t : Table Value} {names : List Value}
    (htable : source kind = .table t)
    (hnames : names = (Value.alike t.names).filter fun name => !name.isText) (hne : names ≠ []) :
    Reports source (.namesNotText kind names)
  | repeatedColumns {kind : Element} {t : Table String} {names : List String}
    (htable : source kind = .table t.handedIn) (hne : names ≠ [])
    (hnames : ∀ name, name ∈ names ↔ 2 ≤ t.names.count name) :
    Reports source (.repeatedColumns kind names)
  | missingColumn {kind : Element} {t : Table String} {column : String}
    (htable : source kind = .table t.handedIn) (hreserved : column ∈ kind.reserved)
    (hmissing : column ∉ t.names) : Reports source (.missingColumn kind column)
  | nullId {vertices edges : Table Value} {id : Value} (htables : HasTables source vertices edges)
    (hid : id ∈ vertices.textCells idColumn) (hnull : id.isNull = true) : Reports source .nullId
  | repeatedIds {vertices edges : Table Value} {ids : List Value}
    (htables : HasTables source vertices edges)
    (hnull : ∀ id ∈ vertices.textCells idColumn, id.isNull = false) (hne : ids ≠ [])
    (hids : ∀ id ∈ ids, 2 ≤ (vertices.textCells idColumn).countP id.same)
    (hall : ∀ id : Value, 2 ≤ (vertices.textCells idColumn).countP id.same → id.isIn ids = true)
    (hordered : ¬Value.RepeatUnordered (vertices.textCells idColumn)) :
    Reports source (.repeatedIds ids)
  | unorderedIds {vertices edges : Table Value} (htables : HasTables source vertices edges)
    (hnull : ∀ id ∈ vertices.textCells idColumn, id.isNull = false)
    (hunordered : Value.RepeatUnordered (vertices.textCells idColumn)) :
    Reports source .unorderedIds

namespace Value

/-- No name is told to be no text exactly if all names are texts. -/
theorem filter_alike_eq_nil_iff {names : List Value} :
    (alike names).filter (fun name => !name.isText) = [] ↔ ∀ name ∈ names, name.isText = true := by
  simp only [List.filter_eq_nil_iff, Bool.not_eq_true', Bool.not_eq_false]
  rw [alike]
  split
  · simp only [List.forall_mem_map, isText_toFloat]
  · rfl

end Value

theorem mem_repeatedNames {names : List String} {name : String} :
    name ∈ repeatedNames names ↔ 2 ≤ names.count name := by
  rw [repeatedNames, List.mem_mergeSort, List.mem_eraseDups, List.mem_filter, decide_eq_true_eq]
  exact and_iff_right_of_imp fun htwice => List.count_pos_iff.1 (by omega)

theorem nodup_of_repeatedNames_eq_nil {names : List String} (h : repeatedNames names = []) :
    names.Nodup := by
  refine List.nodup_iff_count_le_one.2 fun name => ?_
  by_contra htwice
  have hmem : name ∈ repeatedNames names := mem_repeatedNames.2 (by omega)
  rw [h] at hmem
  exact List.not_mem_nil hmem

namespace Graph

variable {source : Element → TableSource} {vertices edges : Table Value} {e : GraphError}

theorem relation_of_repeated (kind : Element) (required : List String) {t : Table String}
    (hnodup : ¬t.names.Nodup) : relation kind required (.table t.handedIn) =
      .error (.repeatedColumns kind (repeatedNames t.names)) := by
  simp only [relation, Table.names_handedIn, Value.filter_alike_texts, Table.textColumns_handedIn,
    dif_neg hnodup]
  rfl

theorem relation_of_missing (kind : Element) {required : List String} {t : Table String}
    {column : String} (hnodup : t.names.Nodup)
    (hfind : (required.find? fun column => !t.names.contains column) = some column) :
    relation kind required (.table t.handedIn) = .error (.missingColumn kind column) := by
  simp only [relation, Table.names_handedIn, Value.filter_alike_texts, Table.textColumns_handedIn,
    dif_pos hnodup]
  split
  · next h => exact absurd h (by simp)
  · split
    · next column' h =>
      rw [Table.textColumns_handedIn, hfind] at h
      rw [Option.some.inj h]
    · next h =>
      rw [Table.textColumns_handedIn, hfind] at h
      cases h

/-- A table is accepted, or the error is a report on it. -/
theorem relation_cases (source : Element → TableSource) (kind : Element) :
    (∃ r : Relation kind.reserved, relation kind kind.reserved (source kind) = .ok r ∧
        source kind = .table r.table.handedIn) ∨
      ∃ e : GraphError, relation kind kind.reserved (source kind) = .error e ∧
        e.Reports source := by
  cases hsource : source kind with
  | other given => exact .inr ⟨_, rfl, .notTable hsource⟩
  | table t =>
    by_cases hbad : ((Value.alike t.names).filter fun name => !name.isText) = []
    · obtain ⟨t, rfl⟩ := Table.exists_handedIn (Value.filter_alike_eq_nil_iff.1 hbad)
      by_cases hnodup : t.names.Nodup
      · cases hfind : kind.reserved.find? fun column => !t.names.contains column with
        | none =>
          have hmem : ∀ column ∈ kind.reserved, column ∈ t.names := by
            simpa using List.find?_eq_none.1 hfind
          exact .inl ⟨_, relation_handedIn kind hnodup hmem, rfl⟩
        | some column =>
          refine .inr ⟨_, relation_of_missing kind hnodup hfind, .missingColumn hsource
            (List.mem_of_find?_eq_some hfind) ?_⟩
          simpa using List.find?_some hfind
      · refine .inr ⟨_, relation_of_repeated kind _ hnodup, .repeatedColumns hsource ?_
          fun _ => mem_repeatedNames⟩
        exact fun hnil => hnodup (nodup_of_repeatedNames_eq_nil hnil)
    · refine .inr ⟨_, ?_, .namesNotText hsource rfl hbad⟩
      rw [relation, if_pos (by simpa using hbad)]

theorem Relation.hasTables (v : Relation Element.vertex.reserved)
    (e : Relation Element.edge.reserved)
    (hv : source .vertex = .table v.table.handedIn) (he : source .edge = .table e.table.handedIn) :
    HasTables source v.table.handedIn e.table.handedIn :=
  ⟨hv, he, Table.hasColumns_handedIn.2 ⟨v.nodup, v.mem⟩,
    Table.hasColumns_handedIn.2 ⟨e.nodup, e.mem⟩⟩

/-- The error for repeated identities, which are listed if they have an order. -/
def repeatedError (ids : List Value) : GraphError :=
  match Value.sorted? (Value.repeatedOnce ids) with
  | some repeated => .repeatedIds repeated
  | none => .unorderedIds

theorem reports_repeatedError (htables : HasTables source vertices edges)
    (hnull : ∀ id ∈ vertices.textCells idColumn, id.isNull = false)
    (hrepeated : ¬((vertices.textCells idColumn).map Value.key).Nodup) :
    (repeatedError (vertices.textCells idColumn)).Reports source := by
  rw [repeatedError]
  have hunordered := Value.sorted?_repeatedOnce_eq_none_iff hnull
  cases hsorted : Value.sorted? (Value.repeatedOnce (vertices.textCells idColumn)) with
  | none => exact .unorderedIds htables hnull (hunordered.1 hsorted)
  | some ids =>
    have hperm := Value.perm_of_sorted? hsorted
    refine .repeatedIds htables hnull ?_ (fun id hid => ?_) (fun id htwice => ?_) ?_
    · rintro rfl
      exact hrepeated ((Value.nodup_key_iff hnull).2 hperm.symm.eq_nil)
    · exact Value.two_le_countP_of_mem hnull (hperm.mem_iff.1 hid)
    · rw [Value.isIn, hperm.any_eq]
      exact Value.isIn_repeatedOnce.2 htwice
    · rw [← hunordered, hsorted]
      exact Option.some_ne_none ids

/-- What is handed in becomes a graph, or the error is a report on it. -/
theorem ofTables_or_reports (source : Element → TableSource) :
    (∃ g : Graph, ofTables (source .vertex) (source .edge) = .ok g ∧
        source .vertex = .table g.vertices.handedIn ∧ source .edge = .table g.edges.handedIn) ∨
      ∃ e : GraphError, ofTables (source .vertex) (source .edge) = .error e ∧ e.Reports source := by
  have hrelation (kind : Element) := relation_cases source kind
  rcases hrelation .vertex with ⟨v, hv, hvertices⟩ | ⟨err, hv, hreports⟩
  · rcases hrelation .edge with ⟨e, he, hedges⟩ | ⟨err, he, hreports⟩
    · have htables := Relation.hasTables v e hvertices hedges
      have hids := Table.textCells_handedIn v.table idColumn
      rw [ofTables, show relation .vertex [idColumn] _ = .ok v from hv,
        show relation .edge [srcColumn, dstColumn] _ = .ok e from he]
      simp only [bind, Except.bind]
      split
      · next hnull =>
        split
        · exact .inl ⟨_, rfl, hvertices, hedges⟩
        · next hrepeated =>
          rw [← hids] at hnull hrepeated
          refine .inr ⟨_, ?_, reports_repeatedError htables hnull hrepeated⟩
          rw [repeatedError, Value.repeatedOnce, hids]
          cases Value.sorted? (Value.distinct (Value.repeated (v.table.cells idColumn))) <;> rfl
      · next hnull =>
        push Not at hnull
        obtain ⟨id, hid, hnull⟩ := hnull
        exact .inr ⟨_, rfl, .nullId htables (hids ▸ hid) ((Bool.not_eq_false _).mp hnull)⟩
    · refine .inr ⟨err, ?_, hreports⟩
      rw [ofTables, show relation .vertex [idColumn] _ = .ok v from hv,
        show relation .edge [srcColumn, dstColumn] _ = .error err from he]
      rfl
  · refine .inr ⟨err, ?_, hreports⟩
    rw [ofTables, show relation .vertex [idColumn] _ = .error err from hv]
    rfl

/-- The tables of a graph form one. -/
theorem formGraph_of_handedIn {g : Graph} (hv : source .vertex = .table g.vertices.handedIn)
    (he : source .edge = .table g.edges.handedIn) :
    FormGraph source g.vertices.handedIn g.edges.handedIn := by
  have htables := Relation.hasTables
    ⟨g.vertices, g.nodup_vertices, List.forall_mem_singleton.2 g.id_mem⟩
    ⟨g.edges, g.nodup_edges, fun _ => g.side_mem⟩ hv he
  refine ⟨htables, ?_, ?_⟩
  · rw [Table.textCells_handedIn]
    exact g.id_not_null
  · rw [Table.textCells_handedIn]
    exact g.pairwise_ids

end Graph

/-- Of two tables with proper columns only the identities are reported. -/
theorem GraphError.Reports.of_hasTables {source : Element → TableSource}
    {vertices edges : Table Value} {e : GraphError} (h : e.Reports source)
    (htables : HasTables source vertices edges) :
    (∃ id ∈ vertices.textCells idColumn, id.isNull = true) ∨
      (∀ id ∈ vertices.textCells idColumn, id.isNull = false) ∧
        (∃ id : Value, 2 ≤ (vertices.textCells idColumn).countP id.same) ∧
        (Value.RepeatUnordered (vertices.textCells idColumn) → e = .unorderedIds) := by
  have htable (kind : Element) : ∃ t : Table Value, source kind = .table t ∧
      t.HasColumns kind.reserved := by
    cases kind with
    | vertex => exact ⟨_, htables.vertices_eq, htables.vertex_columns⟩
    | edge => exact ⟨_, htables.edges_eq, htables.edge_columns⟩
  cases h with
  | notTable hgiven =>
    obtain ⟨t, ht, -⟩ := htable _
    cases hgiven.symm.trans ht
  | namesNotText hsource hnames hne =>
    obtain ⟨t, ht, hcolumns⟩ := htable _
    cases hsource.symm.trans ht
    exact absurd (hnames.trans (Value.filter_alike_eq_nil_iff.2 hcolumns.text)) hne
  | repeatedColumns hsource hne hnames =>
    obtain ⟨t, ht, hcolumns⟩ := htable _
    cases hsource.symm.trans ht
    obtain ⟨name, hname⟩ := List.exists_mem_of_ne_nil _ hne
    have honce := List.nodup_iff_count_le_one.1 (Table.hasColumns_handedIn.1 hcolumns).1 name
    exact absurd ((hnames name).1 hname) (by omega)
  | missingColumn hsource hreserved hmissing =>
    obtain ⟨t, ht, hcolumns⟩ := htable _
    cases hsource.symm.trans ht
    exact absurd ((Table.hasColumns_handedIn.1 hcolumns).2 _ hreserved) hmissing
  | nullId htables' hid hnull =>
    obtain ⟨rfl, rfl⟩ := htables.unique htables'
    exact .inl ⟨_, hid, hnull⟩
  | repeatedIds htables' hnull hne hids hall hordered =>
    obtain ⟨rfl, rfl⟩ := htables.unique htables'
    obtain ⟨id, hid⟩ := List.exists_mem_of_ne_nil _ hne
    exact .inr ⟨hnull, ⟨id, hids id hid⟩, fun hunordered => absurd hunordered hordered⟩
  | unorderedIds htables' hnull hunordered =>
    obtain ⟨rfl, rfl⟩ := htables.unique htables'
    obtain ⟨id, -, -, htwice⟩ := hunordered.1
    exact .inr ⟨hnull, ⟨id, htwice⟩, fun _ => rfl⟩

/-- Nothing is reported of two tables that are a graph. -/
theorem GraphError.Reports.not_formGraph {source : Element → TableSource}
    {vertices edges : Table Value} {e : GraphError} (h : e.Reports source) :
    ¬FormGraph source vertices edges := by
  intro hform
  rcases h.of_hasTables hform.toHasTables with ⟨id, hid, hnull⟩ | ⟨hnull, ⟨id, htwice⟩, -⟩
  · rw [hform.not_null id hid] at hnull
    cases hnull
  · exact Value.not_two_le_countP hnull hform.differ id htwice

namespace Graph

variable {source : Element → TableSource} {vertices edges : Table Value}

/-- Where texts are repeated beside values that are no texts, listing them fails. -/
theorem ofTables_of_unordered (htables : HasTables source vertices edges)
    (hnull : ∀ id ∈ vertices.textCells idColumn, id.isNull = false)
    (hrepeat : Value.RepeatUnordered (vertices.textCells idColumn)) :
    ofTables (source .vertex) (source .edge) = .error .unorderedIds := by
  rcases ofTables_or_reports source with ⟨g, -, hv, he⟩ | ⟨e, he, hreports⟩
  · have hform := formGraph_of_handedIn hv he
    obtain ⟨rfl, rfl⟩ := htables.unique hform.toHasTables
    obtain ⟨id, -, -, htwice⟩ := hrepeat.1
    exact absurd htwice (Value.not_two_le_countP hnull hform.differ id)
  · rcases hreports.of_hasTables htables with ⟨id, hid, hid'⟩ | ⟨-, -, hunordered⟩
    · rw [hnull id hid] at hid'
      cases hid'
    · rw [he, hunordered hrepeat]

/-- Vertices whose identities are two texts and two numbers. -/
def mixedIds : Table Value where
  headings := [{ name := .text idColumn, kind := .mixed }]
  rows := [[.int 1], [.text "a"], [.int 1], [.text "a"]]
  rectangular := by decide

/-- A relation without edges. -/
def noEdges : Table Value where
  headings := [srcColumn, dstColumn].map fun name => { name := .text name, kind := .mixed }
  rows := []
  rectangular := nofun

/-- These vertices, and no edges. -/
def mixedSource : Element → TableSource
  | .vertex => .table mixedIds
  | .edge => .table noEdges

end Graph

end GraphMotif
