import GraphMotif.Proofs.Plan.Erasing
import GraphMotif.Proofs.Plan.Links
import GraphMotif.Proofs.Resolution.Identity
import Mathlib.Data.List.Perm.Basic

/-!
# The shape of plans

Below its projection the plan of a pattern is one chain of operators: the right input of every join
and of every anti-join is a scan. Each relation that a binding stands for is scanned once, under the
tag of the binding, and each negated clause scans the edges once more under a tag of its own. No two
tags are the same, so no two columns are, whatever the attributes are called.
-/

namespace GraphMotif

namespace Plan

/-- The scans in a plan: which relation, under which tag, with which columns. -/
def scans (p : Plan) : List (Element × String × List String) :=
  p.walk.filterMap fun
    | scan element tag columns => some (element, tag, columns)
    | _ => none

/-- The right inputs of the anti-joins in a plan. -/
def antiJoined (p : Plan) : List Plan :=
  p.walk.filterMap fun
    | antiJoin _ right _ => some right
    | _ => none

/-- An operator below a projection whose columns are told apart, and which has a scan on its right,
with other columns than those on its left. -/
def Tidy (node : Plan) : Prop :=
  node.columns.Nodup ∧
    match node with
    | join left right _ | antiJoin left right _ =>
      (∃ element tag columns, right = scan element tag columns) ∧
        left.columns.Disjoint right.columns
    | project _ _ => False
    | _ => True

end Plan

/-- The scan of the relation of a binding. -/
def Schema.scanned (s : Schema) (b : Binding) : Element × String × List String :=
  (b.kind, b.column, s.columns b.kind)

/-- The scan of the edges that a negated clause forbids. -/
def Schema.forbidden (s : Schema) (tag : String) : Element × String × List String :=
  (.edge, tag, s.edgeColumns)

/-- The tags of the negated clauses of a pattern. -/
def Pattern.negatedTags (p : Pattern) : List String :=
  (p.clauses.zipIdx.filter (·.1.negated)).map fun x => Schema.negatedTag x.2

/-- Whether the relation of a binding is asked for: that of a named vertex, of the vertex of a
vertex clause, or of the edge of a positive clause. -/
def Resolution.AsksFor (r : Resolution) (b : Binding) : Prop :=
  (b.kind = .vertex ∧ b.name.isSome = true) ∨ (∃ slot, .vertex slot b ∈ r.clauses) ∨
    ∃ clause src dst, .edge clause src b dst ∈ r.clauses ∧ clause.negated = false

/-! ## Tags -/

/-- Columns under two tags are told apart by the tags. -/
theorem disjoint_map_qualified {tag tag' : String} (h : IsTag tag) (h' : IsTag tag')
    (hne : tag ≠ tag') (columns columns' : List String) :
    (columns.map (qualified tag)).Disjoint (columns'.map (qualified tag')) := by
  intro name hname hname'
  obtain ⟨column, -, rfl⟩ := List.mem_map.1 hname
  obtain ⟨column', -, heq⟩ := List.mem_map.1 hname'
  exact hne ((qualified_inj h h').1 heq.symm).1

/-- The tag of a negated clause is no column of a binding. -/
theorem Binding.Tagged.ne_negatedTag {b : Binding} (h : b.Tagged) (index : Nat) :
    b.column ≠ Schema.negatedTag index := by
  intro heq
  rw [h, Schema.negatedTag] at heq
  generalize b.kind = kind at heq
  cases kind with
  | vertex => exact absurd ((letter_append_toString_inj rfl rfl).1 heq).1 (by decide)
  | edge => exact absurd ((letter_append_toString_inj rfl rfl).1 heq).1 (by decide)

theorem isTag_negatedTag (index : Nat) : IsTag (Schema.negatedTag index) :=
  isTag_append_toString (by decide) index

namespace Outline

/-- The tags of the anti-joins, from the innermost one on. -/
def tags : Outline → List String
  | scan _ => []
  | join o .. | filter o _ => o.tags
  | antiJoin o tag .. => o.tags ++ [tag]

/-- The tags of the anti-joins of an outline, if there is one. -/
def tagsSoFar (o? : Option Outline) : List String := (o?.map tags).getD []

variable {s : Schema} {scope scope' bs : List Binding} {o : Outline} {o? : Option Outline}
  {b src edge dst : Binding} {index : Nat} {resolved : ResolvedClause}
  {clauses : List ResolvedClause} {tag : String}

/-! ## The columns of a plan -/

theorem columns_plan (s : Schema) (o : Outline) :
    (o.plan s).columns = o.bindings.flatMap s.tagged := by
  induction o with
  | scan b => exact (List.flatMap_singleton ..).symm
  | join o b equalities ih =>
    show (o.plan s).columns ++ s.tagged b = _
    rw [ih, bindings, List.flatMap_append, List.flatMap_singleton]
  | filter o equalities ih => exact ih
  | antiJoin o tag ends edge ih => exact ih

/-- The columns of bindings are no columns under another tag. -/
theorem disjoint_tagged (hscope : Scope scope) (hsub : ∀ b ∈ o.bindings, b ∈ scope)
    (htag : IsTag tag) (hne : ∀ b ∈ o.bindings, b.column ≠ tag) (columns : List String) :
    (o.plan s).columns.Disjoint (columns.map (qualified tag)) := by
  rw [columns_plan]
  intro name hname
  obtain ⟨b, hb, hname⟩ := List.mem_flatMap.1 hname
  exact disjoint_map_qualified (hscope.isTag_column (hsub b hb)) htag (hne b hb) _ _ hname

section Tidy

variable (hscope : Scope scope) (hvertices : s.vertexColumns.Nodup) (hedges : s.edgeColumns.Nodup)

include hvertices hedges

theorem nodup_columns (kind : Element) : (s.columns kind).Nodup := by
  cases kind
  · exact hvertices
  · exact hedges

include hscope

/-- The columns of different bindings are told apart. -/
theorem nodup_flatMap_tagged (hsub : ∀ b ∈ bs, b ∈ scope) (hnodup : bs.Nodup) :
    (bs.flatMap s.tagged).Nodup := by
  refine List.nodup_flatMap.2 ⟨fun b _ => ?_, ?_⟩
  · exact (nodup_columns hvertices hedges b.kind).map (qualified_injective b.column)
  · refine hnodup.imp_of_mem fun {b b'} hb hb' hne => ?_
    refine disjoint_map_qualified (hscope.isTag_column (hsub b hb))
      (hscope.isTag_column (hsub b' hb')) (fun heq => ?_) _ _
    exact hne (hscope.column_inj (hsub b hb) (hsub b' hb') heq)

theorem nodup_columns_plan (hsub : ∀ b ∈ o.bindings, b ∈ scope) (hnodup : o.bindings.Nodup) :
    (o.plan s).columns.Nodup := by
  rw [columns_plan]
  exact nodup_flatMap_tagged hscope hvertices hedges hsub hnodup

/-- All operators of an outline over bindings of a scope are tidy. -/
theorem tidy_plan (hsub : ∀ b ∈ o.bindings, b ∈ scope) (hnodup : o.bindings.Nodup)
    (htags : ∀ tag ∈ o.tags, ∃ index, tag = Schema.negatedTag index) :
    ∀ node ∈ (o.plan s).walk, node.Tidy := by
  have hscan (kind : Element) (tag : String) : ∀ node ∈ (s.scan kind tag).walk, node.Tidy := by
    intro node hnode
    obtain rfl := List.mem_singleton.1 hnode
    exact ⟨(nodup_columns hvertices hedges kind).map (qualified_injective tag), trivial⟩
  induction o with
  | scan b => exact hscan b.kind b.column
  | join o b equalities ih =>
    have hwhole := nodup_columns_plan (o := join o b equalities) hscope hvertices hedges hsub hnodup
    obtain ⟨hnodup, -, hnew⟩ := List.nodup_append.1 hnodup
    obtain ⟨hsub, hb⟩ := List.forall_mem_append.1 hsub
    have hb : b ∈ scope := hb b List.mem_cons_self
    refine List.forall_mem_cons.2 ⟨⟨hwhole, ⟨_, _, _, rfl⟩, ?_⟩,
      List.forall_mem_append.2 ⟨ih hsub hnodup htags, hscan b.kind b.column⟩⟩
    refine disjoint_tagged hscope hsub (hscope.isTag_column hb) ?_ _
    intro b' hb' heq
    exact hnew b' hb' b List.mem_cons_self (hscope.column_inj (hsub b' hb') hb heq)
  | filter o equalities ih =>
    refine List.forall_mem_cons.2 ⟨⟨?_, trivial⟩, ih hsub hnodup htags⟩
    exact nodup_columns_plan (o := o) hscope hvertices hedges hsub hnodup
  | antiJoin o tag ends edge ih =>
    obtain ⟨hrest, htag⟩ := List.forall_mem_append.1 htags
    obtain ⟨index, rfl⟩ := htag tag List.mem_cons_self
    refine List.forall_mem_cons.2 ⟨⟨?_, ⟨_, _, _, rfl⟩, ?_⟩,
      List.forall_mem_append.2 ⟨ih hsub hnodup hrest, hscan .edge _⟩⟩
    · exact nodup_columns_plan (o := o) hscope hvertices hedges hsub hnodup
    · refine disjoint_tagged hscope hsub (isTag_negatedTag index) ?_ _
      exact fun b hb => (hscope.tagged b (hsub b hb)).ne_negatedTag index

end Tidy

/-! ## The scans of a plan -/

theorem scans_plan (s : Schema) (o : Outline) :
    (o.plan s).scans.Perm (o.bindings.map s.scanned ++ o.tags.map s.forbidden) := by
  induction o with
  | scan b => exact .refl _
  | join o b equalities ih =>
    have hscans : ((join o b equalities).plan s).scans = (o.plan s).scans ++ [s.scanned b] :=
      List.filterMap_append
    rw [hscans, bindings, List.map_append, List.map_singleton, List.append_assoc]
    refine (ih.append_right _).trans ?_
    rw [List.append_assoc]
    exact List.perm_append_comm.append_left _
  | filter o equalities ih => exact ih
  | antiJoin o tag ends edge ih =>
    have hscans : ((antiJoin o tag ends edge).plan s).scans =
        (o.plan s).scans ++ [s.forbidden tag] := List.filterMap_append
    rw [hscans, tags, List.map_append, List.map_singleton, ← List.append_assoc]
    exact ih.append_right _

theorem antiJoined_plan (s : Schema) (o : Outline) :
    (o.plan s).antiJoined = o.tags.reverse.map (s.scan .edge) := by
  induction o with
  | scan b => rfl
  | join o b equalities ih =>
    have hright : ((join o b equalities).plan s).antiJoined = (o.plan s).antiJoined ++ [] :=
      List.filterMap_append
    rw [hright, List.append_nil, ih]
    rfl
  | filter o equalities ih => exact ih
  | antiJoin o tag ends edge ih =>
    have hright : ((antiJoin o tag ends edge).plan s).antiJoined =
        s.scan .edge tag :: ((o.plan s).antiJoined ++ []) :=
      congrArg _ List.filterMap_append
    rw [hright, List.append_nil, ih, tags, List.reverse_append]
    rfl

/-! ## The outline of a pattern -/

theorem nodup_carriedAfter (h : bs.Nodup) (resolved : ResolvedClause) :
    (resolved.carriedAfter bs).Nodup := by
  have hcarry {bs : List Binding} (h : bs.Nodup) (b : Binding) : (carry bs b).Nodup := by
    unfold carry
    split
    · exact h
    · next hb => exact List.concat_eq_append ▸ h.concat hb
  cases resolved with
  | vertex slot v => exact hcarry h v
  | edge clause src edge dst =>
    rw [ResolvedClause.carriedAfter]
    split
    · exact h
    · refine List.nodup_append.2 ⟨hcarry h edge, nodup_eraseDups _, ?_⟩
      rintro v hv v' hv' rfl
      exact (mem_newEnds.1 hv').2.2 hv

/-- A clause keeps what is carried and adds what it scans. -/
theorem mem_carriedAfter_iff :
    b ∈ resolved.carriedAfter bs ↔ b ∈ bs ∨ resolved.Scans b := by
  refine ⟨mem_carriedAfter, ?_⟩
  cases resolved with
  | vertex slot v => exact mem_carry.2
  | edge clause src edge dst =>
    rw [ResolvedClause.carriedAfter]
    rintro (hb | ⟨hnegated, hb⟩)
    · split
      · exact hb
      · exact List.mem_append_left _ (mem_carry.2 (.inl hb))
    · rw [if_neg (Bool.eq_false_iff.1 hnegated)]
      by_cases hcarried : b ∈ carry bs edge
      · exact List.mem_append_left _ hcarried
      · rcases hb with rfl | ⟨hname, hend⟩
        · exact absurd (mem_carry.2 (.inr rfl)) hcarried
        · exact List.mem_append_right _ (mem_newEnds.2 ⟨hend, hname, hcarried⟩)

theorem nodup_addClauses (h : (bindingsSoFar o?).Nodup) :
    (bindingsSoFar (addClauses o? index clauses)).Nodup := by
  induction clauses generalizing o? index with
  | nil => exact h
  | cons resolved clauses ih =>
    refine ih ?_
    rw [bindingsSoFar_addClause]
    exact nodup_carriedAfter h resolved

/-- The bindings of an outline are those that its clauses scan. -/
theorem mem_addClauses_iff :
    b ∈ bindingsSoFar (addClauses o? index clauses) ↔
      b ∈ bindingsSoFar o? ∨ ∃ resolved ∈ clauses, resolved.Scans b := by
  induction clauses generalizing o? index with
  | nil => simp only [addClauses, List.not_mem_nil, false_and, exists_false, or_false]
  | cons resolved clauses ih =>
    rw [addClauses, ih, bindingsSoFar_addClause, mem_carriedAfter_iff, List.exists_mem_cons_iff,
      or_assoc]

theorem closed_tags (tags : List String) : Closed fun o => o.tags = tags :=
  ⟨fun h _ => h, fun h _ => h⟩

/-- A negated clause adds its tag, and a positive one none. -/
theorem tags_addClause (hkinds : resolved.WellKinded)
    (hadd : addClause o? index resolved = some o) :
    o.tags = tagsSoFar o? ++ if resolved.negated then [Schema.negatedTag index] else [] := by
  cases hnegated : resolved.negated with
  | false =>
    rw [if_neg Bool.false_ne_true, List.append_nil]
    refine (closed_tags (tagsSoFar o?)).addClause hkinds hadd ?_ ?_ ?_
    · rintro rfl b
      rfl
    · rintro o rfl
      rfl
    · rintro clause src edge dst rfl hclause
      exact absurd (hnegated.symm.trans hclause) nofun
  | true =>
    cases resolved with
    | vertex => exact absurd hnegated nofun
    | edge clause src edge dst =>
      rw [addClause, if_pos (show clause.negated = true from hnegated)] at hadd
      obtain ⟨o, rfl, rfl⟩ := Option.map_eq_some_iff.1 hadd
      rfl

/-- The anti-joins of an outline are those of the negated clauses. -/
theorem tags_addClauses (hkinds : ∀ resolved ∈ clauses, resolved.WellKinded)
    (hfirst : o? = none → ∀ resolved, clauses.head? = some resolved → resolved.negated = false) :
    tagsSoFar (addClauses o? index clauses) =
      tagsSoFar o? ++ (((clauses.map ResolvedClause.clause).zipIdx index).filter (·.1.negated)).map
        fun x => Schema.negatedTag x.2 := by
  induction clauses generalizing o? index with
  | nil =>
    rw [addClauses, List.map_nil, List.zipIdx_nil, List.filter_nil, List.map_nil, List.append_nil]
  | cons resolved clauses ih =>
    obtain ⟨hkind, hkinds⟩ := List.forall_mem_cons.1 hkinds
    -- only a negated clause at the start has no outline
    have hsome : ∃ o, addClause o? index resolved = some o := by
      cases resolved with
      | vertex => exact ⟨_, rfl⟩
      | edge clause src edge dst =>
        rw [addClause]
        split
        · next hnegated =>
          cases o? with
          | none => cases (hfirst rfl _ rfl).symm.trans hnegated
          | some o => exact ⟨_, rfl⟩
        · exact ⟨_, rfl⟩
    obtain ⟨o, hadd⟩ := hsome
    rw [addClauses, ih hkinds (by rw [hadd]; rintro ⟨⟩), hadd]
    show o.tags ++ _ = _
    rw [tags_addClause hkind hadd, List.append_assoc, List.map_cons, List.zipIdx_cons,
      List.filter_cons]
    refine congrArg _ ?_
    show _ = List.map _ (if resolved.negated = true then _ else _)
    split <;> rfl

end Outline

/-! ## The plan of a pattern -/

namespace Schema

/-- What the plan of a resolved pattern looks like below its projection, the relations of some
bindings being scanned. -/
structure Shapes (s : Schema) (p : Pattern) (r : Resolution) (plan : MatchPlan)
    (scanned : List Binding) : Prop where
  /-- All operators are tidy, so the plan is left-deep. -/
  tidy : ∀ node ∈ plan.child.walk, node.Tidy
  /-- Named vertices, the vertices of vertex clauses and the edges of positive clauses are
  scanned. -/
  mem_scanned : ∀ b, b ∈ scanned ↔ b ∈ r.bindings ∧ r.AsksFor b
  /-- There is one scan for each of them, and one for each negated clause. -/
  scans : plan.child.scans.Perm (scanned.map s.scanned ++ p.negatedTags.map s.forbidden)
  nodup : scanned.Nodup ∧ (plan.child.scans.map fun scan => scan.2.1).Nodup
  /-- A negated clause is one anti-join with its scan; later clauses come above earlier ones. -/
  antiJoined : plan.child.antiJoined = p.negatedTags.reverse.map (s.scan .edge)
  /-- An end without a name is never scanned. -/
  hidden : ∀ clause src edge dst, .edge clause src edge dst ∈ r.clauses → ∀ v ∈ [src, dst],
    v.name = none → ∀ scan ∈ plan.child.scans, scan.2.1 ≠ v.column
  /-- The columns are those of the relations that are scanned. -/
  columns : plan.child.columns = scanned.flatMap s.tagged

variable {s : Schema} {p : Pattern} {r : Resolution} {plan : MatchPlan} {b v src edge dst : Binding}
  {clause : EdgeClause} {o : Outline} {scanned : List Binding}

/-! ### Tags of negated clauses -/

theorem negatedTag_injective : Function.Injective negatedTag := fun _ _ h =>
  ((letter_append_toString_inj rfl rfl).1 h).2

theorem mem_negatedTags {tag : String} (h : tag ∈ p.negatedTags) :
    ∃ index, tag = negatedTag index := by
  obtain ⟨x, -, rfl⟩ := List.mem_map.1 h
  exact ⟨x.2, rfl⟩

theorem nodup_negatedTags (p : Pattern) : p.negatedTags.Nodup := by
  have hindices : ((p.clauses.zipIdx.filter (·.1.negated)).map Prod.snd).Nodup := by
    refine (List.filter_sublist.map Prod.snd).nodup ?_
    rw [List.zipIdx_map_snd]
    exact List.nodup_range'
  have htags := hindices.map negatedTag_injective
  rwa [List.map_map] at htags

/-! ### What is scanned -/

/-- The outline that draws the plan of a resolved pattern with clauses. -/
theorem exists_drawn (hr : p.resolve = .ok r) (hplan : s.compile r = .ok plan)
    (hne : p.isEmpty = false) :
    ∃ o, Outline.addClauses none 0 r.clauses = some o ∧ plan.child = o.plan s ∧
      (∀ b ∈ o.bindings, b ∈ r.bindings) ∧ CarriesNamed r.bindings o.bindings := by
  obtain ⟨clauses, bindings, hok, -, rfl⟩ := Pattern.resolve_eq_ok_iff.1 hr
  obtain ⟨f, hadds, hchild, -, -⟩ := exists_frontier_of_compile hne hplan
  obtain ⟨o, houtline, hdraws, hnamed⟩ := Outline.exists_draws hok hadds
  exact ⟨o, houtline, hchild.trans hdraws.plan, hdraws.carries.subset, hnamed⟩

theorem wellKinded_of_resolve (hr : p.resolve = .ok r) : ∀ c ∈ r.clauses, c.WellKinded := by
  obtain ⟨_, _, hok, -, rfl⟩ := Pattern.resolve_eq_ok_iff.1 hr
  exact Outline.wellKinded_of_resolveClauses .nil hok

/-- The bindings of an outline are those that the resolved pattern asks for. -/
theorem mem_bindings_iff_asksFor (hr : p.resolve = .ok r)
    (houtline : Outline.addClauses none 0 r.clauses = some o)
    (hsub : ∀ b ∈ o.bindings, b ∈ r.bindings) (hnamed : CarriesNamed r.bindings o.bindings) :
    b ∈ o.bindings ↔ b ∈ r.bindings ∧ r.AsksFor b := by
  have hscans : b ∈ Outline.bindingsSoFar (Outline.addClauses none 0 r.clauses) ↔
      b ∈ Outline.bindingsSoFar none ∨ ∃ c ∈ r.clauses, c.Scans b := Outline.mem_addClauses_iff
  rw [houtline] at hscans
  have hscans : b ∈ o.bindings ↔ ∃ c ∈ r.clauses, c.Scans b :=
    hscans.trans (or_iff_right List.not_mem_nil)
  constructor
  · intro hb
    refine ⟨hsub b hb, ?_⟩
    obtain ⟨c, hc, hscan⟩ := hscans.1 hb
    have hkinds := wellKinded_of_resolve hr c hc
    cases c with
    | vertex slot v =>
      obtain rfl : b = v := hscan
      exact .inr (.inl ⟨slot, hc⟩)
    | edge clause src e dst =>
      obtain ⟨hpositive, rfl | ⟨hname, rfl | rfl⟩⟩ := hscan
      · exact .inr (.inr ⟨clause, src, dst, hc, hpositive⟩)
      · exact .inl ⟨hkinds.1, hname⟩
      · exact .inl ⟨hkinds.2.2, hname⟩
  · rintro ⟨hb, ⟨-, hname⟩ | ⟨slot, hc⟩ | ⟨clause, src, dst, hc, hpositive⟩⟩
    · exact hnamed b hb hname
    · exact hscans.2 ⟨_, hc, rfl⟩
    · exact hscans.2 ⟨_, hc, hpositive, .inl rfl⟩

/-- An end of an edge that has no name is not asked for. -/
theorem not_asksFor_end (hr : p.resolve = .ok r) (hc : .edge clause src edge dst ∈ r.clauses)
    (hv : v ∈ [src, dst]) (hname : v.name = none) : ¬r.AsksFor v := by
  have hsteps := Pattern.bindClauses_of_resolve hr
  have hmem : v ∈ (ResolvedClause.edge clause src edge dst).bindings := Outline.ends_subset hv
  have hkind : v.kind = .vertex := by
    obtain ⟨hsrc, -, hdst⟩ := wellKinded_of_resolve hr _ hc
    rcases List.mem_cons.1 hv with rfl | hv
    · exact hsrc
    · rwa [List.mem_singleton.1 hv]
  rintro (⟨-, hsome⟩ | ⟨slot, hc'⟩ | ⟨clause', src', dst', hc', -⟩)
  · rw [hname] at hsome
    exact absurd hsome nofun
  · exact absurd (hsteps.eq_of_nameless .nil hc hc' hmem List.mem_cons_self hname) nofun
  · have hedge := (wellKinded_of_resolve hr _ hc').2.1
    exact absurd (hkind.symm.trans hedge) nofun

/-! ### The shape -/

/-- The tags of scans are told apart, and none is that of a binding that is not scanned. -/
theorem tags_of_scans (hr : p.resolve = .ok r) (hsub : ∀ b ∈ scanned, b ∈ r.bindings)
    (hnodup : scanned.Nodup) {scans : List (Element × String × List String)}
    (hscans : scans.Perm (scanned.map s.scanned ++ p.negatedTags.map s.forbidden)) :
    (scans.map fun scan => scan.2.1).Nodup ∧
      ∀ v ∈ r.bindings, v ∉ scanned → ∀ scan ∈ scans, scan.2.1 ≠ v.column := by
  have hscope := Pattern.scope_of_resolve hr
  have htags : (scans.map fun scan => scan.2.1).Perm
      (scanned.map Binding.column ++ p.negatedTags) := by
    refine (hscans.map _).trans (.of_eq ?_)
    rw [List.map_append, List.map_map, List.map_map]
    exact congrArg _ (List.map_id _)
  constructor
  · refine htags.nodup_iff.2 (List.nodup_append.2 ⟨?_, nodup_negatedTags p, ?_⟩)
    · exact hnodup.map_on fun b hb b' hb' => hscope.column_inj (hsub b hb) (hsub b' hb')
    · intro column hcolumn tag htag
      obtain ⟨b, hb, rfl⟩ := List.mem_map.1 hcolumn
      obtain ⟨index, rfl⟩ := mem_negatedTags htag
      exact (hscope.tagged b (hsub b hb)).ne_negatedTag index
  · intro v hv hnot scan hscan heq
    have htag := htags.subset (List.mem_map_of_mem hscan)
    rw [heq] at htag
    rcases List.mem_append.1 htag with hcolumn | htag
    · obtain ⟨b, hb, hbv⟩ := List.mem_map.1 hcolumn
      exact hnot (hscope.column_inj (hsub b hb) hv hbv ▸ hb)
    · obtain ⟨index, hindex⟩ := mem_negatedTags htag
      exact (hscope.tagged v hv).ne_negatedTag index hindex

/-- The plan of the pattern without clauses scans nothing. -/
theorem shapes_of_isEmpty (hr : p.resolve = .ok r) (hplan : s.compile r = .ok plan)
    (hempty : p.isEmpty = true) : s.Shapes p r plan [] := by
  obtain ⟨clauses⟩ := p
  obtain rfl : clauses = [] := List.isEmpty_iff.1 hempty
  obtain rfl := Except.ok.inj hr
  obtain rfl := Except.ok.inj hplan
  refine ⟨?_, ?_, .refl _, ⟨.nil, .nil⟩, rfl, ?_, rfl⟩
  · intro node hnode
    obtain rfl := List.mem_singleton.1 hnode
    exact ⟨.nil, trivial⟩
  · exact fun b => iff_of_false List.not_mem_nil fun h => absurd h.1 List.not_mem_nil
  · exact fun _ _ _ _ hc => absurd hc List.not_mem_nil

/-- The tags of anti-joins are those of the negated clauses. -/
theorem tags_of_resolve (hr : p.resolve = .ok r)
    (hanchored : ∀ c, p.clauses.head? = some c → c.negated = false) :
    Outline.tagsSoFar (Outline.addClauses none 0 r.clauses) = p.negatedTags := by
  have hclauses := (Pattern.clauses_of_resolve hr).2
  rw [Outline.tags_addClauses (wellKinded_of_resolve hr), hclauses]
  · rfl
  · intro _ c hc
    refine hanchored c.clause ?_
    rw [← hclauses, List.head?_map, hc]
    rfl

/-- The plan of every pattern is left-deep, scans the relation of each element that has one exactly
once, and keeps all columns apart. -/
theorem compilePattern_shapes (hplan : s.compilePattern p = .ok plan)
    (hvertices : s.vertexColumns.Nodup) (hedges : s.edgeColumns.Nodup) :
    ∃ r scanned, p.resolve = .ok r ∧ s.Shapes p r plan scanned := by
  have hanchored := (wellBound_of_compilePattern hplan).anchored
  obtain ⟨r, hr, hplan⟩ := compilePattern_eq_ok_iff.1 hplan
  cases hempty : p.isEmpty with
  | true => exact ⟨r, [], hr, shapes_of_isEmpty hr hplan hempty⟩
  | false =>
    obtain ⟨o, houtline, hchild, hsub, hnamed⟩ := exists_drawn hr hplan hempty
    refine ⟨r, o.bindings, hr, ?_⟩
    have hscope := Pattern.scope_of_resolve hr
    have hnodup : o.bindings.Nodup := by
      have h : (Outline.bindingsSoFar (Outline.addClauses none 0 r.clauses)).Nodup :=
        Outline.nodup_addClauses .nil
      rwa [houtline] at h
    have htags : o.tags = p.negatedTags := by
      have h := tags_of_resolve hr hanchored
      rwa [houtline] at h
    have hscans : plan.child.scans.Perm
        (o.bindings.map s.scanned ++ p.negatedTags.map s.forbidden) := by
      rw [hchild, ← htags]
      exact Outline.scans_plan s o
    have hasked (b : Binding) := mem_bindings_iff_asksFor (b := b) hr houtline hsub hnamed
    obtain ⟨hdistinct, hhidden⟩ := tags_of_scans hr hsub hnodup hscans
    refine ⟨?_, hasked, hscans, ⟨hnodup, hdistinct⟩, ?_, ?_, ?_⟩
    · rw [hchild]
      refine Outline.tidy_plan hscope hvertices hedges hsub hnodup fun tag htag => ?_
      exact mem_negatedTags (htags ▸ htag)
    · rw [hchild, ← htags]
      exact Outline.antiJoined_plan s o
    · intro clause src edge dst hc v hv hname
      refine hhidden v ?_ fun hscanned => ?_
      · exact (Pattern.mem_bindings_of_resolve hr).2
          (List.mem_flatMap.2 ⟨_, hc, Outline.ends_subset hv⟩)
      · exact not_asksFor_end hr hc hv hname ((hasked v).1 hscanned).2
    · rw [hchild]
      exact Outline.columns_plan s o

/-- Attributes that look like columns of plans. -/
def trickySchema : Schema where
  vertexColumns := ["id", "::id", "v0::id"]
  edgeColumns := ["src", "dst", ":src"]
  id_mem := by decide
  src_mem := by decide
  dst_mem := by decide

/-- A loop that recurs with an end left out, a vertex without a name, and an edge forbidden between
two vertices. -/
def loopPattern : Pattern where
  clauses :=
    [.edge { src := some "a", edge := some "e", dst := some "a", negated := false },
     .vertex none,
     .edge { src := none, edge := some "e", dst := some "b", negated := false },
     .edge { src := some "a", edge := none, dst := some "b", negated := true }]

/-- The vertices and the edge of the pattern are scanned once each, and the edges once more. -/
theorem compilePattern_shapes_loopPattern :
    ∃ plan, trickySchema.compilePattern loopPattern = .ok plan ∧
      trickySchema.vertexColumns.Nodup ∧ trickySchema.edgeColumns.Nodup ∧
      plan.child.scans.map (fun scan => scan.2.1) = ["e1", "v0", "v2", "v4", "n3"] ∧
      ∃ r scanned, loopPattern.resolve = .ok r ∧
        trickySchema.Shapes loopPattern r plan scanned :=
  ⟨_, rfl, by decide, by decide, by decide +kernel,
    compilePattern_shapes rfl (by decide) (by decide)⟩

end Schema

end GraphMotif
