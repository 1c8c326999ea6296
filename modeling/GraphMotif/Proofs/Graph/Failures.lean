import GraphMotif.Proofs.Graph.Ends

/-!
# How a search fails

The search for the pattern of a text gives a table, or the text is no pattern, or the names of the
pattern do not fit together, or some join of its plan would match a column of numbers with a column
of texts. The last cannot happen where the identities and both ends of the edges are all stored as
numbers or truth values, or all in mixed columns: a join makes a column mixed, but not its cells
texts.
-/

namespace GraphMotif

namespace ColumnKind

/-- Whether a cell may stand in a column of a kind. -/
def stores : ColumnKind → Value → Bool
  | int, .int _ | float, .float _ | bool, .bool _ | mixed, _ => true
  | _, _ => false

/-- Whether columns of two kinds are matched whatever is in them: not one of numbers and a mixed
one. -/
def Joins (kind kind' : ColumnKind) : Prop :=
  ¬(kind.isNumeric = true ∧ kind' = mixed) ∧ ¬(kind = mixed ∧ kind'.isNumeric = true)

instance (kind kind' : ColumnKind) : Decidable (kind.Joins kind') :=
  inferInstanceAs (Decidable (_ ∧ _))

theorem joins_self (kind : ColumnKind) : kind.Joins kind := by
  cases kind <;> decide

theorem Joins.symm {kind kind' : ColumnKind} (h : kind.Joins kind') : kind'.Joins kind :=
  ⟨fun h' => h.2 h'.symm, fun h' => h.1 h'.symm⟩

end ColumnKind

/-- Cells out of a column that is not mixed are not taken for texts. -/
theorem holdsTexts_eq_false {kind : ColumnKind} {cells : List Value} (hkind : kind ≠ .mixed)
    (h : ∀ v ∈ cells, kind.stores v = true) : holdsTexts cells = false := by
  have hholds {some all bools : Bool} (heq : some = true ∨ all = true ∨ bools = true) :
      (!some && !all && !bools) = false := by
    cases some <;> cases all <;> cases bools <;> simp_all
  cases kind with
  | int =>
    cases cells with
    | nil => rfl
    | cons v cells =>
      cases v with
      | int n => rfl
      | _ => exact absurd (h _ List.mem_cons_self) nofun
  | float =>
    refine hholds (.inr (.inl (List.all_eq_true.2 fun v hv => ?_)))
    cases v with
    | float x => rfl
    | _ => exact absurd (h _ hv) nofun
  | bool =>
    refine hholds (.inr (.inr (List.all_eq_true.2 fun v hv => ?_)))
    cases v with
    | bool x => rfl
    | _ => exact absurd (h _ hv) nofun
  | mixed => exact absurd rfl hkind

namespace Graph

variable (g : Graph)

/-- The cells of the relations are what the kinds of their columns say. -/
def StoresCells : Prop :=
  ∀ kind, ∀ column ∈ (g.relations.table kind).names, ∀ row ∈ (g.relations.table kind).rows,
    ((g.relations.table kind).kindAt column).stores
      ((g.relations.table kind).cellAt row column) = true

/-- Identities and ends of edges are matched whatever they are. -/
def KeysJoin : Prop :=
  ∀ side ∈ [srcColumn, dstColumn], (g.vertices.kindAt idColumn).Joins (g.edges.kindAt side)

variable {g} {o : Outline} {b : Binding} {equalities : List Equality} {e : Equality}
  {p : Pattern} {plan : MatchPlan}

/-! ## Joins that cannot clash -/

/-- A column of a binding is matched with a column whatever is in them. -/
def JoinsAt (g : Graph) (o : Outline) (right : Frame) (e : Equality) : Prop :=
  ∃ b ∈ o.bindings, ∃ column ∈ (g.relations.table b.kind).names,
    e.left = qualified b.column column ∧
      ((g.relations.table b.kind).kindAt column).Joins (right.kind e.right)

theorem not_clash (right : Frame) (hg : g.StoresCells) (hrelational : (o.plan g.schema).Relational)
    (h : ∀ e ∈ equalities, g.JoinsAt o right e) : ¬(g.frame o).Clash right equalities := by
  rintro ⟨-, -, e, he, hclash⟩
  obtain ⟨b, hb, column, hcolumn, hleft, hjoins⟩ := h e (mem_of_mem_keyEqualities he)
  rw [hleft] at hclash
  have hkind := kind_frame hrelational hb hcolumn
  rcases hclash with ⟨hnumeric, hmixed, -⟩ | ⟨-, hnumeric, htexts⟩
  · rcases hkind with hkind | hkind
    · exact hjoins.1 ⟨hkind ▸ hnumeric, hmixed⟩
    · rw [hkind] at hnumeric
      exact absurd hnumeric nofun
  · -- a match may have made the column mixed, but its cells are those of the relation
    rw [holdsTexts_eq_false (fun heq => hjoins.2 ⟨heq, hnumeric⟩) fun v hv => ?_] at htexts
    · exact absurd htexts nofun
    · obtain ⟨row, hrow, rfl⟩ := List.mem_map.1 hv
      rw [← cellAt_part (g := g) hcolumn]
      exact hg b.kind column hcolumn _ (part_mem hrelational hb (List.mem_filter.1 hrow).1)

theorem joinsAt_of_endEquality (hkeys : g.KeysJoin) (he : EndEquality o.bindings [b] e) :
    g.JoinsAt o (g.bindingFrame b) e := by
  cases he with
  | @meets v edge side hv hvertex hedge hkind hside =>
    obtain rfl := List.mem_singleton.1 hedge
    refine ⟨v, hv, idColumn, hvertex ▸ g.idColumn_mem, rfl, ?_⟩
    rw [hvertex]
    show (g.vertices.kindAt idColumn).Joins
      ((g.bindingFrame edge).kind (qualified edge.column side))
    rw [kind_bindingFrame_end hkind hside]
    exact hkeys side hside
  | @leadsTo v edge side hedge hkind hv hvertex hside =>
    obtain rfl := List.mem_singleton.1 hv
    refine ⟨edge, hedge, side, hkind ▸ g.side_mem hside, rfl, ?_⟩
    rw [hkind]
    show (g.edges.kindAt side).Joins ((g.bindingFrame v).kind v.idColumn)
    rw [kind_bindingFrame_id hvertex]
    exact (hkeys side hside).symm

theorem not_clashes_scan (s : Schema) (kind : Element) (tag : String) :
    ¬(s.scan kind tag).Clashes g.relations := by
  rintro ⟨node, hnode, hclash⟩
  obtain rfl := List.mem_singleton.1 hnode
  exact hclash

/-- Where keys are matched whatever they are, no join of an outline clashes. -/
theorem not_clashes_plan (hg : g.StoresCells) (hkeys : g.KeysJoin)
    (hrelational : (o.plan g.schema).Relational) (hproper : o.Proper) (hsound : o.Sound) :
    ¬(o.plan g.schema).Clashes g.relations := by
  induction o with
  | scan b => exact not_clashes_scan _ _ _
  | join o b equalities ih =>
    rw [Outline.plan, Plan.clashes_join, not_or, not_or]
    refine ⟨?_, ih hrelational.1 hproper.1 hsound, not_clashes_scan _ _ _⟩
    exact not_clash (g.bindingFrame b) hg hrelational.1 fun e he =>
      joinsAt_of_endEquality hkeys (hproper.2 e he)
  | filter o equalities ih =>
    rw [Outline.plan, Plan.clashes_filter]
    exact ih hrelational hproper.1 hsound
  | antiJoin o tag ends edge ih =>
    rw [Outline.plan, Plan.clashes_antiJoin, not_or, not_or]
    refine ⟨?_, ih hrelational.1 hproper.1 hsound.1, not_clashes_scan _ _ _⟩
    refine not_clash (g.relationFrame .edge tag) hg hrelational.1 fun e he => ?_
    rcases List.mem_append.1 he with he | he
    · exact joinsAt_of_endEquality (b := .forbidden tag) hkeys (hproper.2 e he)
    · -- the cells of a forbidden edge are compared with those of the same columns
      rw [Schema.edgeDemand] at he
      split at he
      · next hname =>
        obtain ⟨column, hcolumn, rfl⟩ := List.mem_map.1 he
        obtain ⟨hedge, hkind, -⟩ := hsound.2 hname
        refine ⟨edge, hedge, column, hkind ▸ hcolumn, rfl, ?_⟩
        rw [kind_relationFrame tag hcolumn, hkind]
        exact ColumnKind.joins_self _
      · exact absurd he List.not_mem_nil

/-! ## Outcomes -/

/-- Finding a pattern gives the columns of its names, or the pattern is not well bound, or some join
of its plan clashes, which happens only where keys are not matched whatever they are. -/
theorem find_outcomes (g : Graph) (p : Pattern) :
    (¬p.WellBound ∧ ∃ e, g.find p = .error (.compile (.unjoinable e))) ∨
      ∃ plan, g.compile p = .ok plan ∧
        ((plan.root.Clashes g.relations ∧ ¬(g.StoresCells ∧ g.KeysJoin) ∧
            ∃ a b, g.find p = .error (.eval (.incomparableKeys a b))) ∨
          (¬plan.root.Clashes g.relations ∧
            ∃ t, g.find p = .ok t ∧ t.names = g.resultLabels p)) := by
  rcases g.schema.compilePattern_cases p with ⟨-, plan, hplan, -⟩ | ⟨hbound, e, he⟩
  · refine .inr ⟨plan, hplan, ?_⟩
    cases hempty : p.isEmpty with
    | true =>
      obtain ⟨t, hfind, hnames, -⟩ := find_of_isEmpty hplan hempty
      obtain rfl := eq_of_compile_of_isEmpty hplan hempty
      refine .inr ⟨?_, t, hfind, hnames⟩
      rw [MatchPlan.root, Plan.clashes_project]
      rintro ⟨node, hnode, hclash⟩
      obtain rfl := List.mem_singleton.1 hnode
      exact hclash
    | false =>
      obtain ⟨r, o, h⟩ := exists_outlined hplan hempty
      have hrelational : plan.child.Relational := h.child ▸ h.relational
      rcases find_eq_resultRows hplan hrelational h.supply h.check with
        ⟨hclash, herror⟩ | ⟨hclash, t, hfind, hnames, -⟩
      · refine .inl ⟨hclash, ?_, herror⟩
        rintro ⟨hg, hkeys⟩
        rw [MatchPlan.root, Plan.clashes_project, h.child] at hclash
        exact not_clashes_plan hg hkeys h.relational h.proper h.sound hclash
      · exact .inr ⟨hclash, t, hfind, hnames.trans h.labels⟩
  · exact .inl ⟨hbound, e, find_eq_error_of_compile he⟩

/-- An integer identity, and an edge between texts. -/
def typedGraph : Graph where
  vertices := .ofColumns [(idColumn, { kind := .int, cells := [.int 1] })]
  edges := .ofColumns [(srcColumn, { kind := .mixed, cells := [.text "x"] }),
    (dstColumn, { kind := .mixed, cells := [.text "x"] })]
  nodup_vertices := by decide +kernel
  nodup_edges := by decide +kernel
  id_mem := by decide +kernel
  src_mem := by decide +kernel
  dst_mem := by decide +kernel
  id_not_null := by decide +kernel
  nodup_id := by decide +kernel

end Graph

end GraphMotif
