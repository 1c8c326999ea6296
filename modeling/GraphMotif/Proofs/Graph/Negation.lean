import GraphMotif.Proofs.Graph.Bare
import GraphMotif.Proofs.Graph.Shown
import GraphMotif.Proofs.Plan.Erasing
import GraphMotif.Proofs.Resolution.Identity

/-!
# Forbidding an edge that was found

A negated clause that names an edge is an anti-join with a fresh scan of the edges, from which it
takes those with all cells of the named edge. The named edge is scanned, too: so a row is removed
exactly if the edge in the row itself is at the ends that the clause names, whatever other edges
there are. How an identity is compared with an end depends on how the result stores it, for earlier
matches may have made its column mixed.
-/

namespace GraphMotif

/-- The pattern with one more clause, which is negated and names an edge. -/
def Pattern.forbid (p : Pattern) (x : Slot) (e : String) (y : Slot) : Pattern where
  clauses := p.clauses ++ [.edge { src := x, edge := some e, dst := y, negated := true }]

namespace Graph

variable (g : Graph)

/-- Whether in a row of a result the identity of a vertex, taken to be stored in some way, equals an
end of an edge. -/
def idMeets (t : Table Label) (row : Row) (stored : ColumnKind) (name e side : String) : Bool :=
  stored.equal (g.edges.kindAt side) (t.cellUnder row (.bundled name idColumn))
    (t.cellUnder row (.bundled e side))

/-- Whether in a row of a result the source and the destination of an edge equal the identities of
the vertices that are named for them. The identity of a vertex that is named for both ends is
matched with sources first. -/
def forbids (t : Table Label) (x : Slot) (e : String) (y : Slot) (row : Row) : Bool :=
  (x.all fun name => g.idMeets t row (t.kindUnder (.bundled name idColumn)) name e srcColumn) &&
    y.all fun name => g.idMeets t row
      (if x = y then (t.kindUnder (.bundled name idColumn)).matched (g.edges.kindAt srcColumn)
        else t.kindUnder (.bundled name idColumn)) name e dstColumn

/-- Unless one of the two stops for keys that cannot be compared, finding a pattern with one more
clause, a negated one that names an edge, gives the rows in which the clause does not forbid the
edge, as they are and in their order. Where identities meet ends in one way only, this leaves no row
if the pattern has the same clause, but positive. -/
def RemovesForbidden (p : Pattern) (x : Slot) (e : String) (y : Slot) : Prop :=
  (∃ a b, g.find p = .error (.eval (.incomparableKeys a b))) ∨
    (∃ a b, g.find (p.forbid x e y) = .error (.eval (.incomparableKeys a b))) ∨
    ∃ t t', g.find p = .ok t ∧ g.find (p.forbid x e y) = .ok t' ∧ t'.names = t.names ∧
      t'.rows = t.rows.filter (fun row => !g.forbids t x e y row) ∧
      (g.SteadyKeys p → .edge { src := x, edge := some e, dst := y, negated := false } ∈ p.clauses →
        t'.rows = [])

end Graph

/-! ## One more clause -/

variable {bs bs' : List Binding} {c : ResolvedClause} {p : Pattern} {r : Resolution} {s : Schema}

theorem BindClauses.concat {bs₀ : List Binding} {clauses : List Clause}
    {resolved : List ResolvedClause} (h : BindClauses bs₀ clauses resolved bs)
    (hsteps : BindSteps c.negated bs c.clause.slots c.bindings bs') :
    BindClauses bs₀ (clauses ++ [c.clause]) (resolved ++ [c]) bs' := by
  induction h with
  | nil => exact .cons hsteps .nil
  | cons hfirst _ ih => exact .cons hfirst (ih hsteps)

/-- The slots of a negated clause are bound where their names are. -/
theorem BindSteps.exists_of_bound {slots : List (Element × Slot)} (h : Scope bs)
    (hbound : ∀ kind name, (kind, some name) ∈ slots → Bound bs kind name) :
    ∃ found bs', BindSteps true bs slots found bs' := by
  refine (BindSteps.exists_iff h).2 ⟨?_, fun _ => hbound⟩
  intro name kind kind' huse huse'
  exact h.kind_unique (huse.elim id (hbound kind name)) (huse'.elim id (hbound kind' name))

namespace Pattern

/-- A negated clause after positive ones, all names of which are bound, is resolved after them. -/
theorem exists_resolve_concat {e : EdgeClause} (hr : p.resolve = .ok r) (hne : p.isEmpty = false)
    (hnegated : e.negated = true)
    (hbound : ∀ kind name, (kind, some name) ∈ Clause.slots (.edge e) →
      Bound r.bindings kind name) :
    ∃ src edge dst r', Pattern.resolve { clauses := p.clauses ++ [.edge e] } = .ok r' ∧
      r'.clauses = r.clauses ++ [.edge e src edge dst] ∧
      BindSteps true r.bindings (Clause.slots (.edge e)) [src, edge, dst] r'.bindings := by
  obtain ⟨found, bs', hsteps⟩ := BindSteps.exists_of_bound (scope_of_resolve hr) hbound
  obtain ⟨resolved, hclause, rfl⟩ := hsteps.exists_resolved
  cases resolved with
  | vertex => cases hclause
  | edge e' src edge dst =>
    obtain rfl := Clause.edge.inj hclause
    have hneg : (ResolvedClause.edge e' src edge dst).negated = true := hnegated
    have hconcat := (bindClauses_of_resolve hr).concat (c := .edge e' src edge dst)
      (by rw [hneg]; exact hsteps)
    obtain ⟨_, _, -, hpositive, -⟩ := resolve_eq_ok_iff.1 hr
    refine ⟨src, edge, dst, _, resolve_eq_ok_iff.2 ⟨_, _, (resolveClauses_eq_ok_iff .nil).2 hconcat,
      fun _ => ?_, rfl⟩, rfl, hsteps⟩
    obtain ⟨c, hc, hcpositive⟩ := hpositive fun hnil => by
      rw [isEmpty, hnil] at hne
      cases hne
    exact ⟨c, List.mem_append_left _ hc, hcpositive⟩

theorem WellBound.concat {c : Clause} (h : p.WellBound) (hne : p.isEmpty = false)
    (hr : Pattern.resolve { clauses := p.clauses ++ [c] } = .ok r) :
    Pattern.WellBound { clauses := p.clauses ++ [c] } := by
  refine wellBound_iff.2 ⟨⟨r, hr⟩, fun first hfirst => h.anchored first ?_⟩
  obtain ⟨c', clauses, hcons⟩ := List.exists_cons_of_ne_nil (List.isEmpty_eq_false_iff.1 hne)
  rw [hcons] at hfirst ⊢
  exact hfirst

theorem isEmpty_of_mem_sites {s : Site} (hs : s ∈ p.sites) : p.isEmpty = false := by
  rw [isEmpty, List.isEmpty_eq_false_iff]
  intro hnil
  rw [sites, hnil] at hs
  exact absurd hs List.not_mem_nil

/-- A negated clause at the end asks for no element. -/
theorem sites_forbid (p : Pattern) (x : Slot) (e : String) (y : Slot) :
    (p.forbid x e y).sites = p.sites := by
  have hnone (index : Nat) : Clause.sites index
      (.edge { src := x, edge := some e, dst := y, negated := true }) = [] :=
    Clause.sites_of_negated rfl index
  rw [sites_eq, sites_eq, forbid, clauseSites, clauseSites, List.zipIdx_append, List.flatMap_append,
    List.zipIdx_singleton, List.flatMap_singleton]
  simp only [hnone, List.append_nil]

end Pattern

/-! ## What an anti-join compares -/

namespace Frame

variable {left right : Frame} {l row : Row} {equalities : List Equality} {e : Equality}

/-- The left column of a key counts as matched with the right one. -/
theorem kind_meeting_of_key (he : e ∈ keyEqualities equalities) :
    (left.meeting right equalities).kind e.left =
      (left.kind e.left).matched (right.kind e.right) := by
  simp only [meeting, find?_keyEqualities he]

/-- A key is compared as if it was not matched yet. -/
theorem holds_meeting_of_key (he : e ∈ keyEqualities equalities) :
    (left.meeting right equalities).holds right l row e = left.holds right l row e := by
  simp only [holds, kind_meeting_of_key he, ColumnKind.matched_equal]
  rfl

/-- Equalities all of which are keys are compared as if nothing was matched yet. -/
theorem agree_of_keys (h : keyEqualities equalities = equalities) :
    left.agree right equalities l row = equalities.all (left.holds right l row) := by
  refine all_congr_of_mem fun e he => holds_meeting_of_key ?_
  rwa [h]

end Frame

theorem keyEqualities_singleton (e : Equality) : keyEqualities [e] = [e] := rfl

theorem keyEqualities_pair {e e' : Equality} (hleft : e'.left ≠ e.left)
    (hright : e'.right ≠ e.right) : keyEqualities [e, e'] = [e, e'] := by
  simp [keyEqualities, splitEqualities, hleft, hright]

/-- Of two equalities with one left column the first one is a key. -/
theorem keyEqualities_pair_of_left {e e' : Equality} (hleft : e'.left = e.left) :
    keyEqualities [e, e'] = [e] := by
  simp [keyEqualities, splitEqualities, hleft]

namespace Graph

variable {g : Graph} {f : Frame} {src dst : Binding} {x y : Slot} {tag : String} {l row : Row}

/-- Whether the identity of a binding, taken to be stored in some way, equals an end of an edge. -/
def boundMeets (g : Graph) (f : Frame) (l : Row) (stored : ColumnKind) (v : Binding) (side : String)
    (row : Row) : Bool :=
  stored.equal (g.edges.kindAt side) (f.cell l v.idColumn) (g.edges.cellAt row side)

theorem srcColumn_mem_sides : srcColumn ∈ [srcColumn, dstColumn] := List.mem_cons_self

theorem dstColumn_mem_sides : dstColumn ∈ [srcColumn, dstColumn] :=
  List.mem_cons_of_mem _ (List.mem_singleton.2 rfl)

theorem kind_relationFrame_end {side : String} (hside : side ∈ [srcColumn, dstColumn]) :
    (g.relationFrame .edge tag).kind (qualified tag side) = g.edges.kindAt side :=
  kind_relationFrame tag (g.side_mem hside)

theorem holds_forbidden (f : Frame) (v : Binding) {side : String}
    (hside : side ∈ [srcColumn, dstColumn]) :
    f.holds (g.relationFrame .edge tag) l row (v.meets (.forbidden tag) side) =
      g.boundMeets f l (f.kind v.idColumn) v side row := by
  have hcell : (g.relationFrame .edge tag).cell row (qualified tag side) =
      g.edges.cellAt row side := cell_relationFrame .edge tag row side
  rw [Frame.holds_meets, boundMeets, ← kind_relationFrame_end hside, ← hcell]
  rfl

theorem endDemand_of_name {v : Binding} {name : String} (hname : v.name = some name)
    (side : String) : Schema.endDemand tag v side = [v.meets (.forbidden tag) side] := by
  rw [Schema.endDemand, hname]
  rfl

theorem endDemand_of_nameless {v : Binding} (hname : v.name = none) (side : String) :
    Schema.endDemand tag v side = [] := by
  rw [Schema.endDemand, hname]
  rfl

/-- Where one binding is at both ends, the second end is checked when the first one is matched. -/
theorem agree_ends_of_alike (hleft : dst.idColumn = src.idColumn) :
    f.agree (g.relationFrame .edge tag) [src.meets (.forbidden tag) srcColumn,
        dst.meets (.forbidden tag) dstColumn] l row =
      (g.boundMeets f l (f.kind src.idColumn) src srcColumn row &&
        g.boundMeets f l ((f.kind dst.idColumn).matched (g.edges.kindAt srcColumn)) dst dstColumn
          row) := by
  have hkeys : keyEqualities [src.meets (.forbidden tag) srcColumn,
      dst.meets (.forbidden tag) dstColumn] = [src.meets (.forbidden tag) srcColumn] :=
    keyEqualities_pair_of_left hleft
  have hkey := hkeys ▸ List.mem_cons_self
  have hkind : (f.meeting (g.relationFrame .edge tag) [src.meets (.forbidden tag) srcColumn,
      dst.meets (.forbidden tag) dstColumn]).kind dst.idColumn =
        (f.kind dst.idColumn).matched (g.edges.kindAt srcColumn) := by
    rw [hleft, ← kind_relationFrame_end srcColumn_mem_sides]
    exact Frame.kind_meeting_of_key hkey
  rw [Frame.agree, List.all_cons, List.all_cons, List.all_nil, Bool.and_true,
    Frame.holds_meeting_of_key hkey, holds_forbidden f src srcColumn_mem_sides,
    holds_forbidden _ dst dstColumn_mem_sides, hkind]
  rfl

/-- Where the ends have two bindings, both are keys. -/
theorem agree_ends_of_apart (hleft : dst.idColumn ≠ src.idColumn) :
    f.agree (g.relationFrame .edge tag) [src.meets (.forbidden tag) srcColumn,
        dst.meets (.forbidden tag) dstColumn] l row =
      (g.boundMeets f l (f.kind src.idColumn) src srcColumn row &&
        g.boundMeets f l (f.kind dst.idColumn) dst dstColumn row) := by
  have hsides : qualified tag dstColumn ≠ qualified tag srcColumn := fun heq =>
    absurd (qualified_injective tag heq) (by decide)
  rw [Frame.agree_of_keys (keyEqualities_pair hleft hsides), List.all_cons, List.all_cons,
    List.all_nil, Bool.and_true, holds_forbidden f src srcColumn_mem_sides,
    holds_forbidden f dst dstColumn_mem_sides]

/-- An edge is at the ends that a negated clause names if the identities of these equal them. Where
one vertex is named for both ends, its identity has been matched with sources when it meets
destinations. -/
theorem agree_negatedEnds (hsrc : src.name = x) (hdst : dst.name = y)
    (hsame : x.isSome = true → (x = y ↔ src.idColumn = dst.idColumn)) :
    f.agree (g.relationFrame .edge tag) (Outline.negatedEnds tag src dst) l row =
      ((x.all fun _ => g.boundMeets f l (f.kind src.idColumn) src srcColumn row) &&
        y.all fun _ => g.boundMeets f l
          (if x = y then (f.kind dst.idColumn).matched (g.edges.kindAt srcColumn)
            else f.kind dst.idColumn) dst dstColumn row) := by
  rw [Outline.negatedEnds]
  cases x with
  | none =>
    rw [endDemand_of_nameless hsrc, List.nil_append, Option.all_none, Bool.true_and]
    cases y with
    | none =>
      rw [endDemand_of_nameless hdst]
      rfl
    | some name =>
      rw [endDemand_of_name hdst, Frame.agree_of_keys (keyEqualities_singleton _), List.all_cons,
        List.all_nil, Bool.and_true, holds_forbidden f dst dstColumn_mem_sides, if_neg nofun]
      rfl
  | some name =>
    rw [endDemand_of_name hsrc, Option.all_some]
    cases y with
    | none =>
      rw [endDemand_of_nameless hdst, List.append_nil,
        Frame.agree_of_keys (keyEqualities_singleton _), List.all_cons, List.all_nil,
        holds_forbidden f src srcColumn_mem_sides]
      rfl
    | some name' =>
      rw [endDemand_of_name hdst, List.singleton_append, Option.all_some]
      by_cases heq : some name = some name'
      · rw [agree_ends_of_alike ((hsame rfl).1 heq).symm, if_pos heq]
      · rw [agree_ends_of_apart fun hleft => heq ((hsame rfl).2 hleft.symm), if_neg heq]

/-! ## The edge of a row -/

section Edge

variable {o : Outline} {edge : Binding} {ends : List Equality}

/-- Among all edges, one that has the cells of the edge in a row is at the ends that are demanded
exactly if that edge is. -/
theorem any_agree_edge (hrelational : (o.plan g.schema).Relational) (hb : edge ∈ o.bindings)
    (hkind : edge.kind = .edge) (hname : edge.name.isSome = true)
    (hends : ∀ e ∈ ends, ∀ column, e.left ≠ qualified edge.column column)
    (hright : ∀ e ∈ ends, ∃ column ∈ g.edges.names, e.right = qualified tag column)
    (hl : l ∈ (g.frame o).rows) :
    (g.relationFrame .edge tag).rows.any ((g.frame o).agree (g.relationFrame .edge tag)
        (ends ++ g.schema.edgeDemand tag edge) l) =
      (g.frame o).agree (g.relationFrame .edge tag) ends l (g.part (g.frame o) l edge) := by
  rw [rows_relationFrame, Bool.eq_iff_iff, List.any_eq_true]
  constructor
  · rintro ⟨row, -, hagree⟩
    obtain ⟨hagree, hkeys⟩ := (agree_negated_iff hrelational hb hkind hname hends).1 hagree
    rw [← hagree]
    exact agree_part_edge hkind (fun _ hcolumn => hcolumn) hright hkeys
  · intro hagree
    -- the edge in the row is scanned, and it has its own cells
    refine ⟨_, edge_mem hrelational hb hkind hl,
      (agree_negated_iff hrelational hb hkind hname hends).2 ⟨hagree, fun column hcolumn => ?_⟩⟩
    rw [cellAt_part_edge _ _ hkind hcolumn]

theorem right_of_mem_negatedEnds {e : Equality} (he : e ∈ Outline.negatedEnds tag src dst) :
    ∃ column ∈ g.edges.names, e.right = qualified tag column := by
  have hend {v : Binding} {side : String} (hside : side ∈ [srcColumn, dstColumn])
      (he : e ∈ Schema.endDemand tag v side) :
      ∃ column ∈ g.edges.names, e.right = qualified tag column := by
    rw [Schema.endDemand] at he
    split at he
    · rw [List.mem_singleton.1 he]
      exact ⟨side, g.side_mem hside, rfl⟩
    · exact absurd he List.not_mem_nil
  rcases List.mem_append.1 he with he | he
  · exact hend srcColumn_mem_sides he
  · exact hend dstColumn_mem_sides he

end Edge

/-! ## The outline with the clause -/

/-- With a negated clause that names an edge at its end, a pattern has one more anti-join, and no
more bindings with names. -/
structure Forbidding (g : Graph) (p : Pattern) (x : Slot) (e : String) (y : Slot) (r : Resolution)
    (o : Outline) (r' : Resolution) (tag : String) (src edge dst : Binding) : Prop where
  outlined : ∃ plan', g.Outlined (p.forbid x e y) plan' r'
    (.antiJoin o tag (Outline.negatedEnds tag src dst) edge)
  clause_mem :
    .edge { src := x, edge := some e, dst := y, negated := true } src edge dst ∈ r'.clauses
  subset : ∀ b ∈ r.bindings, b ∈ r'.bindings
  visible : ∀ b ∈ r'.bindings, b.name.isSome = true → b ∈ r.bindings

variable {plan : MatchPlan} {r' : Resolution} {o : Outline} {edge v : Binding}
  {name e side : String} {t : Table Label} {clause : EdgeClause}

theorem Outlined.exists_forbidding (h : g.Outlined p plan r o) (hedge : .named .edge e ∈ p.sites)
    (hends : ∀ name ∈ x.toList ++ y.toList, .named .vertex name ∈ p.sites) :
    ∃ r' tag src edge dst, g.Forbidding p x e y r o r' tag src edge dst := by
  have hbound {kind : Element} {name : String} (hs : .named kind name ∈ p.sites) :
      Bound r.bindings kind name := by
    obtain ⟨b, hb, hkind, hname⟩ := h.exists_binding hs
    exact ⟨b, h.subset b hb, hkind, hname⟩
  have hslots (kind : Element) (name : String) (hslot : (kind, some name) ∈ Clause.slots
      (.edge { src := x, edge := some e, dst := y, negated := true })) :
      Bound r.bindings kind name := by
    simp only [Clause.slots, List.mem_cons, Prod.mk.injEq, List.not_mem_nil, or_false] at hslot
    rcases hslot with ⟨rfl, rfl⟩ | ⟨rfl, heq⟩ | ⟨rfl, rfl⟩
    · exact hbound (hends name (List.mem_append_left _ (Option.mem_toList.2 rfl)))
    · exact hbound (Option.some.inj heq ▸ hedge)
    · exact hbound (hends name (List.mem_append_right _ (Option.mem_toList.2 rfl)))
  have hne : p.isEmpty = false := Pattern.isEmpty_of_mem_sites hedge
  obtain ⟨src, edge, dst, r', hr', hclauses, hsteps⟩ :=
    Pattern.exists_resolve_concat h.resolve hne rfl hslots
  have hwell := (Schema.wellBound_of_compilePattern h.compiled).concat hne hr'
  obtain ⟨plan', hplan'⟩ : ∃ plan', g.compile (p.forbid x e y) = .ok plan' := by
    rcases g.schema.compilePattern_cases (p.forbid x e y) with ⟨-, plan', hplan', -⟩ | ⟨hnot, -⟩
    · exact ⟨plan', hplan'⟩
    · exact absurd hwell hnot
  have hne' : (p.forbid x e y).isEmpty = false :=
    List.isEmpty_eq_false_iff.2 (List.ne_nil_of_mem List.mem_concat_self)
  obtain ⟨r'', o', h'⟩ := exists_outlined hplan' hne'
  obtain rfl : r'' = r' := Except.ok.inj (h'.resolve.symm.trans hr')
  -- the clauses before lead to the outline, to which the last one adds an anti-join
  have houtline := h'.outline
  rw [hclauses, Outline.addClauses_append, h.outline] at houtline
  obtain rfl := Option.some.inj houtline
  exact ⟨r'', _, src, edge, dst, ⟨plan', h'⟩, hclauses ▸ List.mem_concat_self, hsteps.subset,
    hsteps.mem_of_negated⟩

namespace Forbidding

variable (h' : g.Forbidding p x e y r o r' tag src edge dst) (h : g.Outlined p plan r o)

include h'

/-- The names of the clause are those of bindings that are there without it. -/
theorem standsFor : StandsFor r.bindings .edge e edge ∧
    (∀ name, x = some name → StandsFor r.bindings .vertex name src) ∧
      ∀ name, y = some name → StandsFor r.bindings .vertex name dst := by
  obtain ⟨plan', houtlined⟩ := h'.outlined
  obtain ⟨⟨hsrc, hsrckind, hsrcname⟩, ⟨hedge, hkind, hname⟩, hdst, hdstkind, hdstname⟩ :=
    houtlined.edge_spec h'.clause_mem
  refine ⟨⟨h'.visible edge hedge (hname ▸ rfl), hkind, hname⟩,
    fun name heq => ?_, fun name heq => ?_⟩
  · have hname := hsrcname.trans heq
    exact ⟨h'.visible src hsrc (hname ▸ rfl), hsrckind, hname⟩
  · have hname := hdstname.trans heq
    exact ⟨h'.visible dst hdst (hname ▸ rfl), hdstkind, hname⟩

/-- The demands of the clause on the ends of an edge. -/
theorem agree_eq (f : Frame) (l row : Row) :
    f.agree (g.relationFrame .edge tag) (Outline.negatedEnds tag src dst) l row =
      ((x.all fun _ => g.boundMeets f l (f.kind src.idColumn) src srcColumn row) &&
        y.all fun _ => g.boundMeets f l
          (if x = y then (f.kind dst.idColumn).matched (g.edges.kindAt srcColumn)
            else f.kind dst.idColumn) dst dstColumn row) := by
  obtain ⟨plan', houtlined⟩ := h'.outlined
  obtain ⟨⟨hsrc, -, hsrcname⟩, -, hdst, -, hdstname⟩ := houtlined.edge_spec h'.clause_mem
  refine agree_negatedEnds hsrcname hdstname fun hx => ⟨fun heq => ?_, fun heq => ?_⟩
  · -- one name has one binding
    obtain ⟨name, hname⟩ := Option.isSome_iff_exists.1 hx
    rw [houtlined.isScope.name_inj src hsrc dst hdst name (hsrcname.trans hname)
      (hdstname.trans (heq.symm.trans hname))]
  · have hcolumn := ((qualified_inj (houtlined.isScope.isTag_column hsrc)
      (houtlined.isScope.isTag_column hdst)).1 heq).1
    have hsame := houtlined.isScope.column_inj hsrc hdst hcolumn
    exact hsrcname.symm.trans ((congrArg Binding.name hsame).trans hdstname)

include h

/-- With the clause, the frame has the rows whose own edge is not at the ends that the clause
names. -/
theorem rows_eq : (g.frame (.antiJoin o tag (Outline.negatedEnds tag src dst) edge)).rows =
    (g.frame o).rows.filter fun l => !(g.frame o).agree (g.relationFrame .edge tag)
      (Outline.negatedEnds tag src dst) l (g.part (g.frame o) l edge) := by
  obtain ⟨plan', houtlined⟩ := h'.outlined
  have hsome : edge.name.isSome = true := h'.standsFor.1.name_eq ▸ rfl
  obtain ⟨hb, hkind, hends⟩ := houtlined.sound.2 hsome
  refine List.filter_congr fun l hl => congrArg (!·) ?_
  exact any_agree_edge h.relational hb hkind hsome hends
    (fun _ he => right_of_mem_negatedEnds he) hl

/-- What the result shows of a name does not depend on the clause. -/
theorem shownCell_eq_of_mem {f : Frame} {label : Label} (hlabel : label ∈ g.resultLabels p)
    (l : Row) : shownCell r'.bindings f l label = shownCell r.bindings f l label := by
  obtain ⟨plan', houtlined⟩ := h'.outlined
  obtain ⟨kind, name, hs, column, -, rfl⟩ := mem_resultLabels.1 hlabel
  obtain ⟨b, hb, -, hname⟩ := h.exists_binding hs
  have hb := h.subset b hb
  rw [shownCell_eq houtlined.isScope (h'.subset b hb) hname, shownCell_eq h.isScope hb hname]

/-- In a row of the result, an identity equals an end as it does in the row of the frame. -/
theorem idMeets_eq (hnames : t.names = g.resultLabels p) (hv : StandsFor r.bindings .vertex name v)
    (hside : side ∈ [srcColumn, dstColumn]) (stored : ColumnKind) (l : Row) :
    g.idMeets t (t.names.map (shownCell r.bindings (g.frame o) l)) stored name e side =
      g.boundMeets (g.frame o) l stored v side (g.part (g.frame o) l edge) := by
  have hedge := h'.standsFor.1
  rw [idMeets, boundMeets, h.cellUnder_eq hv (h.label_mem hnames hv g.idColumn_mem),
    h.cellUnder_eq hedge (h.label_mem hnames hedge (g.side_mem hside)),
    endCell_part (g.frame o) l hedge.kind_eq hside]
  rfl

/-- In a row of the result, the edge is forbidden if its part of the row is at the ends. -/
theorem forbids_eq (hfind : g.find p = .ok t) (hnames : t.names = g.resultLabels p)
    (hl : l ∈ (g.frame o).rows) :
    g.forbids t x e y (t.names.map (shownCell r.bindings (g.frame o) l)) =
      (g.frame o).agree (g.relationFrame .edge tag) (Outline.negatedEnds tag src dst) l
        (g.part (g.frame o) l edge) := by
  obtain ⟨-, hsrc, hdst⟩ := h'.standsFor
  have hkind {v : Binding} {name : String} (hv : StandsFor r.bindings .vertex name v) :
      t.kindUnder (.bundled name idColumn) = (g.frame o).kind v.idColumn :=
    h.kindUnder_eq hfind hl hv (h.label_mem hnames hv g.idColumn_mem)
  rw [h'.agree_eq, forbids]
  refine congrArg₂ and ?_ ?_
  · cases x with
    | none => rfl
    | some name =>
      rw [Option.all_some, Option.all_some, hkind (hsrc name rfl)]
      exact h'.idMeets_eq h hnames (hsrc name rfl) srcColumn_mem_sides _ l
  · cases y with
    | none => rfl
    | some name =>
      rw [Option.all_some, Option.all_some, hkind (hdst name rfl)]
      exact h'.idMeets_eq h hnames (hdst name rfl) dstColumn_mem_sides _ l

end Forbidding

/-! ## Steady keys -/

/-- With steady keys, the edge of a positive clause is at the ends that the clause names, whether or
not the identities of these were matched with other ends before. -/
theorem Outlined.boundMeets_of_clause (h : g.Outlined p plan r o) (hsteady : g.SteadyKeys p)
    (hl : l ∈ (g.frame o).rows) (hc : .edge clause ∈ p.clauses) (hpositive : clause.negated = false)
    (hname : clause.edge = some e) (hend : (name, side) ∈ clause.namedEnds)
    (hv : StandsFor r.bindings .vertex name v) (hedge : StandsFor r.bindings .edge e edge)
    {stored : ColumnKind} (hstored : stored = (g.frame o).kind v.idColumn ∨
      ∃ side', (name, side') ∈ p.namedEnds ∧
        stored = ((g.frame o).kind v.idColumn).matched (g.edges.kindAt side')) :
    g.boundMeets (g.frame o) l stored v side (g.part (g.frame o) l edge) = true := by
  have hne : p.isEmpty = false := List.isEmpty_eq_false_iff.2 (List.ne_nil_of_mem hc)
  obtain ⟨a, hsatisfies, hparts⟩ := h.exists_assignment hsteady hne hl
  obtain ⟨hvpart, hvstored⟩ := hparts _ _ _ hv
  obtain ⟨hepart, -⟩ := hparts _ _ _ hedge
  have hend' : (name, side) ∈ p.namedEnds := List.mem_flatMap.2 ⟨_, hc, hend⟩
  have hstored : g.Stored p (.named .vertex name) idColumn stored := by
    rcases hstored with rfl | ⟨side', hend'', rfl⟩
    · exact hvstored idColumn g.idColumn_mem
    · have hcomparable : Comparable p (.named .vertex name) idColumn (.named .edge e) side' :=
        .idEnd hend'' rfl
      exact (hvstored idColumn g.idColumn_mem).matched hcomparable
  have hat : g.atEnd side (a (.named .vertex name)) (a (.named .edge e)) = true := by
    obtain ⟨index, hindex⟩ := exists_mem_zipIdx hc
    have hsatisfied := List.all_eq_true.1 hsatisfies _ hindex
    simp only [satisfies, hpositive, Bool.false_eq_true, if_false, hname] at hsatisfied
    exact hasEnds_iff.1 hsatisfied name side hend
  rw [← hat, ← hvpart, ← hepart, boundMeets, ← idCell_part (g.frame o) l hv.kind_eq]
  have hkindAt : g.Stored p (.named .edge e) side (g.edges.kindAt side) := .inl rfl
  exact hsteady.atEnd_eq hend' rfl hstored hkindAt
    (h.part_mem_of_standsFor hv hl) (h.part_mem_of_standsFor hedge hl)

/-- With steady keys, a clause that negates a positive one forbids the edge in every row. -/
theorem Forbidding.agree_of_positive (h' : g.Forbidding p x e y r o r' tag src edge dst)
    (h : g.Outlined p plan r o) (hsteady : g.SteadyKeys p)
    (hpositive : .edge { src := x, edge := some e, dst := y, negated := false } ∈ p.clauses)
    (hl : l ∈ (g.frame o).rows) :
    (g.frame o).agree (g.relationFrame .edge tag) (Outline.negatedEnds tag src dst) l
      (g.part (g.frame o) l edge) = true := by
  obtain ⟨hedge, hsrc, hdst⟩ := h'.standsFor
  rw [h'.agree_eq, Bool.and_eq_true, Option.all_eq_true, Option.all_eq_true]
  constructor
  · intro name hx
    exact h.boundMeets_of_clause hsteady hl hpositive rfl rfl
      (EdgeClause.mem_namedEnds.2 (.inl ⟨hx, rfl⟩)) (hsrc name hx) hedge (.inl rfl)
  · intro name hy
    refine h.boundMeets_of_clause hsteady hl hpositive rfl rfl
      (EdgeClause.mem_namedEnds.2 (.inr ⟨hy, rfl⟩)) (hdst name hy) hedge ?_
    by_cases heq : x = y
    · have hend : (name, srcColumn) ∈ EdgeClause.namedEnds
          { src := x, edge := some e, dst := y, negated := false } :=
        EdgeClause.mem_namedEnds.2 (.inl ⟨heq.trans hy, rfl⟩)
      exact .inr ⟨srcColumn, List.mem_flatMap.2 ⟨_, hpositive, hend⟩, if_pos heq⟩
    · exact .inl (if_neg heq)

/-! ## The result -/

/-- After a pattern, a negated clause that names one of its edges removes the rows in which the
source and the destination of that very edge equal the identities of the vertices that the clause
names for them, and no others. -/
theorem find_forbid (hplan : g.compile p = .ok plan) (hedge : .named .edge e ∈ p.sites)
    (hends : ∀ name ∈ x.toList ++ y.toList, .named .vertex name ∈ p.sites) :
    (∃ plan', g.compile (p.forbid x e y) = .ok plan') ∧ g.RemovesForbidden p x e y := by
  obtain ⟨r, o, h⟩ := exists_outlined hplan (Pattern.isEmpty_of_mem_sites hedge)
  obtain ⟨r', tag, src, edge, dst, h'⟩ := h.exists_forbidding hedge hends
  obtain ⟨plan', houtlined⟩ := h'.outlined
  refine ⟨⟨plan', houtlined.compiled⟩, ?_⟩
  rcases h.find_eq with herror | ⟨t, hfind, hnames, hrows⟩
  · exact .inl herror
  rcases houtlined.find_eq with herror | ⟨t', hfind', hnames', hrows'⟩
  · exact .inr (.inl herror)
  have hsame : t'.names = t.names := by
    rw [hnames', hnames, resultLabels, Pattern.sites_forbid, resultLabels]
  have hforbids {l : Row} (hl : l ∈ (g.frame o).rows) := h'.forbids_eq h hfind hnames hl
  have hkept : t'.rows = t.rows.filter fun row => !g.forbids t x e y row := by
    rw [hrows', h'.rows_eq h, List.filter_congr fun l hl => by rw [← hforbids hl], hsame, hrows,
      List.filter_map]
    refine List.map_congr_left fun l _ => List.map_congr_left fun label hlabel => ?_
    exact h'.shownCell_eq_of_mem h (hnames ▸ hlabel) l
  refine .inr (.inr ⟨t, t', hfind, hfind', hsame, hkept, fun hsteady hpositive => ?_⟩)
  rw [hkept, hrows, List.filter_eq_nil_iff, List.forall_mem_map]
  intro l hl
  rw [hforbids hl, h'.agree_of_positive h hsteady hpositive hl]
  exact Bool.false_ne_true

/-- A vertex and two edges that start at it, one back to the vertex and one to nowhere. -/
def returningGraph : Graph where
  vertices := .ofColumns [(idColumn, { kind := .int, cells := [.int 4] })]
  edges := .ofColumns [(srcColumn, { kind := .int, cells := [.int 4, .int 4] }),
    (dstColumn, { kind := .float, cells := [.float (.ofInt 4), .null] })]
  nodup_vertices := by decide +kernel
  nodup_edges := by decide +kernel
  id_mem := by decide +kernel
  src_mem := by decide +kernel
  dst_mem := by decide +kernel
  id_not_null := by decide +kernel
  nodup_id := by decide +kernel

/-- The pattern of a named edge that starts at a vertex. -/
def outPattern : Pattern where
  clauses := [.edge { src := some "x", edge := some "e", dst := none, negated := false }]

theorem steadyKeys_returningGraph (p : Pattern) : returningGraph.SteadyKeys p :=
  steadyKeys_of_isNumeric (by decide +kernel) (by decide +kernel) p

/-- Negating the end of an edge removes the edge that returns and keeps the one to nowhere, and
negating the clause of the pattern itself removes both. -/
theorem find_forbid_returningGraph :
    (∃ plan, returningGraph.compile outPattern = .ok plan) ∧
      .named .edge "e" ∈ outPattern.sites ∧ .named .vertex "x" ∈ outPattern.sites ∧
      returningGraph.SteadyKeys outPattern ∧
      foundRows returningGraph outPattern.clauses = some 2 ∧
      foundRows returningGraph (outPattern.forbid none "e" (some "x")).clauses = some 1 ∧
      foundRows returningGraph (outPattern.forbid (some "x") "e" none).clauses = some 0 ∧
      ((∃ plan, returningGraph.compile (outPattern.forbid none "e" (some "x")) = .ok plan) ∧
        returningGraph.RemovesForbidden outPattern none "e" (some "x")) ∧
      (∃ plan, returningGraph.compile (outPattern.forbid (some "x") "e" none) = .ok plan) ∧
        returningGraph.RemovesForbidden outPattern (some "x") "e" none := by
  have hedge : .named .edge "e" ∈ outPattern.sites := by decide +kernel
  have hvertex : .named .vertex "x" ∈ outPattern.sites := by decide +kernel
  have hends : ∀ name ∈ ["x"], .named .vertex name ∈ outPattern.sites :=
    List.forall_mem_singleton.2 hvertex
  exact ⟨⟨_, rfl⟩, hedge, hvertex, steadyKeys_returningGraph outPattern, by decide +kernel,
    by decide +kernel, by decide +kernel, find_forbid rfl hedge hends, find_forbid rfl hedge hends⟩

/-- The pattern of a vertex and of a named edge. -/
def apartPattern : Pattern where
  clauses := [.vertex (some "x"),
    .edge { src := none, edge := some "e", dst := none, negated := false }]

/-- The pattern of a named edge that starts at a vertex, and of an edge that ends there. -/
def visitedPattern : Pattern where
  clauses := [.edge { src := some "x", edge := some "e", dst := none, negated := false },
    .edge { src := none, edge := none, dst := some "x", negated := false }]

/-- A row is removed although the identity in it is not the source of its edge, but rounded to it;
and where an identity was matched with a mixed column as well, negating a clause of the pattern
leaves a row. -/
theorem foundRows_forbid_ne :
    (foundRows roundedGraph apartPattern.clauses = some 1 ∧
      foundRows roundedGraph (apartPattern.forbid (some "x") "e" none).clauses = some 0 ∧
      ∀ vertex ∈ roundedGraph.vertices.rows, ∀ edge ∈ roundedGraph.edges.rows,
        (roundedGraph.vertices.cellAt vertex idColumn).same
          (roundedGraph.edges.cellAt edge srcColumn) = false) ∧
    .edge { src := some "x", edge := some "e", dst := none, negated := false } ∈
        visitedPattern.clauses ∧
      foundRows retypedGraph (visitedPattern.forbid (some "x") "e" none).clauses = some 1 := by
  decide +kernel

end Graph

end GraphMotif
