import GraphMotif.Proofs.Plan.Outline

/-!
# What outlines compare

The joins and filters of an outline compare identities of vertices with ends of edges and nothing
else, and so do its anti-joins, but for the cells of a forbidden edge. An end that a positive clause
names is compared with its edge somewhere in the outline, and a relation is scanned only for a
positive clause.
-/

namespace GraphMotif

/-- What stands for the edges that an anti-join scans under a tag. -/
def Binding.forbidden (tag : String) : Binding :=
  { kind := .edge, column := tag, name := none, rank := 0 }

/-- The equality of the identity of a vertex with an end of an edge. -/
def Binding.meets (v edge : Binding) (side : String) : Equality :=
  { left := v.idColumn, right := qualified edge.column side }

/-- The same equality, to look the vertex up from the edge. -/
def Binding.leadsTo (edge v : Binding) (side : String) : Equality :=
  { left := qualified edge.column side, right := v.idColumn }

/-- The equalities between the identity of a vertex and an end of an edge, where one of the two is
on the left and the other one on the right. -/
inductive EndEquality (left right : List Binding) : Equality → Prop
  | meets {v edge : Binding} {side : String} (hv : v ∈ left) (hvertex : v.kind = .vertex)
      (hedge : edge ∈ right) (hkind : edge.kind = .edge) (hside : side ∈ [srcColumn, dstColumn]) :
      EndEquality left right (v.meets edge side)
  | leadsTo {v edge : Binding} {side : String} (hedge : edge ∈ left) (hkind : edge.kind = .edge)
      (hv : v ∈ right) (hvertex : v.kind = .vertex) (hside : side ∈ [srcColumn, dstColumn]) :
      EndEquality left right (edge.leadsTo v side)

namespace ResolvedClause

/-- The bindings of a clause are of the kinds that their places ask for. -/
def WellKinded : ResolvedClause → Prop
  | vertex _ v => v.kind = .vertex
  | edge _ src e dst => src.kind = .vertex ∧ e.kind = .edge ∧ dst.kind = .vertex

/-- The bindings whose relations a clause scans, unless they are there: that of a vertex clause, the
edge of a positive edge clause, and the ends that such a clause names. -/
def Scans (b : Binding) : ResolvedClause → Prop
  | vertex _ v => b = v
  | edge clause src e dst =>
    clause.negated = false ∧ (b = e ∨ b.name.isSome = true ∧ (b = src ∨ b = dst))

end ResolvedClause

namespace Outline

/-- An outline compares identities of vertices with ends of edges, each of a binding that is
there. -/
def Proper : Outline → Prop
  | scan _ => True
  | join o b equalities => o.Proper ∧ ∀ e ∈ equalities, EndEquality o.bindings [b] e
  | filter o equalities => o.Proper ∧ ∀ e ∈ equalities, EndEquality o.bindings o.bindings e
  | antiJoin o tag ends _ => o.Proper ∧ ∀ e ∈ ends, EndEquality o.bindings [.forbidden tag] e

/-- Every anti-join demands a vertex at either end of the edges that it forbids. -/
def ForbidsBetween : Outline → Prop
  | scan _ => True
  | join o .. | filter o _ => o.ForbidsBetween
  | antiJoin o tag ends _ => o.ForbidsBetween ∧ ∀ side ∈ [srcColumn, dstColumn],
      ∃ v ∈ o.bindings, v.kind = .vertex ∧ v.meets (.forbidden tag) side ∈ ends

/-- A join or a filter of an outline demands that a vertex is at an end of an edge. -/
inductive Links (v edge : Binding) (side : String) : Outline → Prop
  | meets {o : Outline} {equalities : List Equality} (hv : v ∈ o.bindings)
      (he : v.meets edge side ∈ equalities) : Links v edge side (join o edge equalities)
  | leadsTo {o : Outline} {equalities : List Equality} (hedge : edge ∈ o.bindings)
      (he : edge.leadsTo v side ∈ equalities) : Links v edge side (join o v equalities)
  | filters {o : Outline} {equalities : List Equality} (hv : v ∈ o.bindings)
      (hedge : edge ∈ o.bindings) (he : v.meets edge side ∈ equalities) :
      Links v edge side (filter o equalities)
  | join {o : Outline} (b : Binding) (equalities : List Equality) (h : Links v edge side o) :
      Links v edge side (join o b equalities)
  | filter {o : Outline} (equalities : List Equality) (h : Links v edge side o) :
      Links v edge side (filter o equalities)
  | antiJoin {o : Outline} (tag : String) (ends : List Equality) (b : Binding)
      (h : Links v edge side o) : Links v edge side (antiJoin o tag ends b)

variable {o o' : Outline} {o? : Option Outline} {src edge dst v b : Binding} {side : String}
  {index : Nat} {resolved : ResolvedClause} {bs bs' ends scope scope' : List Binding}

/-! ## Steps of clauses -/

theorem mem_sides (hend : (v, side) ∈ [(src, srcColumn), (dst, dstColumn)]) :
    (v = src ∨ v = dst) ∧ side ∈ [srcColumn, dstColumn] ∧ side ∈ endSides src dst v := by
  rw [mem_endSides]
  rcases List.mem_cons.1 hend with heq | hend
  · obtain ⟨rfl, rfl⟩ := Prod.mk.inj heq
    exact ⟨.inl rfl, List.mem_cons_self, .inl ⟨rfl, rfl⟩⟩
  · obtain ⟨rfl, rfl⟩ := Prod.mk.inj (List.mem_singleton.1 hend)
    exact ⟨.inr rfl, List.mem_cons_of_mem _ List.mem_cons_self, .inr ⟨rfl, rfl⟩⟩

theorem mem_boundEnds {e : Equality} : e ∈ boundEnds bs edge.column src dst ↔
    ∃ v side, (v, side) ∈ [(src, srcColumn), (dst, dstColumn)] ∧ v ∈ bs ∧ v.meets edge side = e := by
  rw [boundEnds, List.mem_filterMap, Prod.exists]
  simp only [Option.ite_none_right_eq_some, Option.some.injEq]
  rfl

theorem mem_bindings_addEdge (o? : Option Outline) (src edge dst : Binding) :
    edge ∈ (addEdge o? src edge dst).bindings := by
  rw [bindings_addEdge]
  exact mem_carry.2 (.inr rfl)

theorem kind_newEnds (hkinds : src.kind = .vertex ∧ edge.kind = .edge ∧ dst.kind = .vertex) :
    ∀ v ∈ newEnds bs src dst, v.kind = .vertex := by
  intro v hv
  rcases (mem_newEnds.1 hv).1 with rfl | rfl
  · exact hkinds.1
  · exact hkinds.2.2

/-- A property that outlines keep under joins and filters that compare identities with ends. -/
structure Closed (P : Outline → Prop) : Prop where
  join : ∀ {o b equalities}, P o → (∀ e ∈ equalities, EndEquality o.bindings [b] e) →
    P (join o b equalities)
  filter : ∀ {o equalities}, P o → (∀ e ∈ equalities, EndEquality o.bindings o.bindings e) →
    P (filter o equalities)

namespace Closed

variable {P : Outline → Prop} (hP : Closed P)

include hP

theorem addVertex (hscan : o? = none → P (scan v)) (h : ∀ o ∈ o?, P o) : P (addVertex o? v) := by
  cases o? with
  | none => exact hscan rfl
  | some o =>
    show P (if v ∈ o.bindings then o else Outline.join o v [])
    split
    · exact h o rfl
    · exact hP.join (h o rfl) fun e he => absurd he List.not_mem_nil

theorem addEdge (hkinds : src.kind = .vertex ∧ edge.kind = .edge ∧ dst.kind = .vertex)
    (hscan : o? = none → P (scan edge)) (h : ∀ o ∈ o?, P o) : P (addEdge o? src edge dst) := by
  obtain ⟨hsrc, hedge, hdst⟩ := hkinds
  have hends {bs right : List Binding} (hmem : edge ∈ right) :
      ∀ e ∈ boundEnds bs edge.column src dst, EndEquality bs right e := by
    intro e he
    obtain ⟨v, side, hend, hv, rfl⟩ := mem_boundEnds.1 he
    obtain ⟨heq, hside, -⟩ := mem_sides hend
    refine .meets hv ?_ hmem hedge hside
    rcases heq with rfl | rfl
    · exact hsrc
    · exact hdst
  cases o? with
  | none => exact hscan rfl
  | some o =>
    show P (if edge ∈ o.bindings then
        if (boundEnds o.bindings edge.column src dst).isEmpty then o
        else Outline.filter o (boundEnds o.bindings edge.column src dst)
      else Outline.join o edge (boundEnds o.bindings edge.column src dst))
    split
    · next hmem =>
      split
      · exact h o rfl
      · exact hP.filter (h o rfl) (hends hmem)
    · exact hP.join (h o rfl) (hends List.mem_cons_self)

theorem attachEnds (h : P o) (hmem : edge ∈ o.bindings) (hedge : edge.kind = .edge)
    (hends : ∀ v ∈ ends, v.kind = .vertex) : P (ends.foldl (attachEnd src edge dst) o) := by
  induction ends generalizing o with
  | nil => exact h
  | cons v ends ih =>
    obtain ⟨hv, hends⟩ := List.forall_mem_cons.1 hends
    refine ih (hP.join h fun e he => ?_) (List.mem_append_left _ hmem) hends
    obtain ⟨side, hside, rfl⟩ := List.mem_map.1 he
    refine .leadsTo hmem hedge List.mem_cons_self hv ?_
    rcases mem_endSides.1 hside with ⟨rfl, -⟩ | ⟨rfl, -⟩
    · exact List.mem_cons_self
    · exact List.mem_cons_of_mem _ List.mem_cons_self

/-- A clause keeps such a property, if a negated one does. -/
theorem addClause (hkinds : resolved.WellKinded) (hadd : addClause o? index resolved = some o)
    (hscan : o? = none → ∀ b, P (scan b)) (h : ∀ o ∈ o?, P o)
    (hnegated : ∀ clause src edge dst, resolved = .edge clause src edge dst →
      clause.negated = true → ∀ o ∈ o?, P (o.addNegatedClause index src edge dst)) : P o := by
  cases resolved with
  | vertex slot v =>
    obtain rfl := Option.some.inj hadd
    exact hP.addVertex (fun hnone => hscan hnone v) h
  | edge clause src edge dst =>
    rw [Outline.addClause] at hadd
    split at hadd
    · next hclause =>
      obtain ⟨o₀, rfl, rfl⟩ := Option.map_eq_some_iff.1 hadd
      exact hnegated clause src edge dst rfl hclause o₀ rfl
    · obtain rfl := Option.some.inj hadd
      exact hP.attachEnds (hP.addEdge hkinds (fun hnone => hscan hnone edge) h)
        (mem_bindings_addEdge o? src edge dst) hkinds.2.1 (kind_newEnds hkinds)

end Closed

/-! ## Clauses of a pattern -/

/-- A resolved clause after an outline that carries the names before it. -/
structure Admits (scope : List Binding) (o? : Option Outline) (resolved : ResolvedClause)
    (scope' : List Binding) : Prop where
  steps : BindSteps resolved.clause.negated scope resolved.clause.slots resolved.bindings scope'
  named : CarriesNamed scope (bindingsSoFar o?)

theorem wellKinded_of_steps
    (hsteps : BindSteps resolved.clause.negated scope resolved.clause.slots resolved.bindings scope') :
    resolved.WellKinded := by
  cases resolved with
  | vertex slot v =>
    cases hsteps.spec with
    | cons hv _ => exact hv.2.1
  | edge clause src edge dst =>
    obtain ⟨hsrc, hedge, hdst⟩ := hsteps.edge_spec
    exact ⟨hsrc.2.1, hedge.2.1, hdst.2.1⟩

/-- The named ends of a negated clause are there. -/
theorem Admits.ends_mem {clause : EdgeClause}
    (h : Admits scope o? (.edge clause src edge dst) scope') (hnegated : clause.negated = true) :
    ∀ v ∈ [src, dst], v.name.isSome = true → v ∈ bindingsSoFar o? := by
  have hsteps := h.steps
  have hneg : (ResolvedClause.edge clause src edge dst).clause.negated = true := hnegated
  rw [hneg] at hsteps
  have hcarried := hsteps.carried_of_negated h.named
  simp only [ResolvedClause.bindings, List.forall_mem_cons] at hcarried ⊢
  exact ⟨hcarried.1, hcarried.2.2⟩

theorem bindingsSoFar_addClause (o? : Option Outline) (index : Nat) (resolved : ResolvedClause) :
    bindingsSoFar (addClause o? index resolved) = resolved.carriedAfter (bindingsSoFar o?) := by
  cases hadd : addClause o? index resolved with
  | some o => exact bindings_addClause hadd
  | none =>
    -- only a negated clause at the start has no outline
    cases resolved with
    | vertex => cases hadd
    | edge clause src edge dst =>
      rw [addClause] at hadd
      split at hadd
      · next hnegated =>
        obtain rfl := Option.map_eq_none_iff.1 hadd
        rw [ResolvedClause.carriedAfter, if_pos hnegated]
      · cases hadd

/-- What the clauses of a pattern keep holds of its outline. -/
theorem addClauses_induction {P : Outline → Prop} {clauses : List Clause}
    {rest : List ResolvedClause} (hscope : Scope scope)
    (hok : Resolution.resolveClauses scope clauses = .ok (rest, scope'))
    (hnamed : CarriesNamed scope (bindingsSoFar o?)) (h : ∀ o ∈ o?, P o)
    (hstep : ∀ {scope scope' o? index resolved o}, resolved.clause ∈ clauses →
      Admits scope o? resolved scope' → addClause o? index resolved = some o → (∀ o ∈ o?, P o) →
        P o) :
    ∀ o ∈ addClauses o? index rest, P o := by
  induction clauses generalizing scope o? rest index with
  | nil =>
    obtain ⟨rfl, -⟩ := Prod.mk.inj (Except.ok.inj hok)
    exact h
  | cons c clauses ih =>
    obtain ⟨resolved, scope₁, rest, hresolved, hrest, rfl⟩ := resolveClauses_cons_eq_ok_iff.1 hok
    obtain ⟨rfl, hsteps⟩ := (resolveClause_eq_ok_iff hscope).1 hresolved
    rw [addClauses]
    refine ih (hsteps.scope hscope) hrest ?_ (fun o ho => ?_)
      fun hc => hstep (List.mem_cons_of_mem _ hc)
    · rw [bindingsSoFar_addClause]
      exact carriesNamed_carriedAfter rfl hsteps hnamed
    · exact hstep List.mem_cons_self ⟨hsteps, hnamed⟩ ho h

theorem wellKinded_of_resolveClauses {clauses : List Clause} {rest : List ResolvedClause}
    (hscope : Scope scope) (hok : Resolution.resolveClauses scope clauses = .ok (rest, scope')) :
    ∀ resolved ∈ rest, resolved.WellKinded := by
  intro resolved hresolved
  obtain ⟨_, _, -, hsteps, -⟩ := exists_steps_of_mem hscope hok hresolved
  exact wellKinded_of_steps hsteps

/-! ## What is compared -/

theorem closed_proper : Closed Proper := ⟨fun h he => ⟨h, he⟩, fun h he => ⟨h, he⟩⟩

/-- A clause keeps an outline proper. -/
theorem proper_addClause (hadmits : Admits scope o? resolved scope')
    (hadd : addClause o? index resolved = some o) (h : ∀ o ∈ o?, o.Proper) : o.Proper := by
  refine closed_proper.addClause (wellKinded_of_steps hadmits.steps) hadd (fun _ _ => trivial) h ?_
  rintro clause src edge dst rfl hnegated o₀ ho₀
  have hdemand {v : Binding} {side : String} (hv : v ∈ [src, dst]) (hvertex : v.kind = .vertex)
      (hside : side ∈ [srcColumn, dstColumn]) :
      ∀ e ∈ Schema.endDemand (Schema.negatedTag index) v side,
        EndEquality o₀.bindings [.forbidden (Schema.negatedTag index)] e := by
    intro e he
    rw [Schema.endDemand] at he
    split at he
    · next hname =>
      obtain rfl := List.mem_singleton.1 he
      have hmem := hadmits.ends_mem hnegated v hv hname
      rw [ho₀] at hmem
      exact .meets hmem hvertex List.mem_cons_self rfl hside
    · exact absurd he List.not_mem_nil
  obtain ⟨hsrc, -, hdst⟩ := wellKinded_of_steps hadmits.steps
  refine ⟨h o₀ ho₀, fun e he => ?_⟩
  rcases List.mem_append.1 he with he | he
  · exact hdemand List.mem_cons_self hsrc List.mem_cons_self e he
  · exact hdemand (List.mem_cons_of_mem _ List.mem_cons_self) hdst
      (List.mem_cons_of_mem _ List.mem_cons_self) e he

theorem closed_forbidsBetween : Closed ForbidsBetween := ⟨fun h _ => h, fun h _ => h⟩

/-- A negated clause that names both ends forbids edges between two vertices. -/
theorem forbidsBetween_addClause (hadmits : Admits scope o? resolved scope')
    (hadd : addClause o? index resolved = some o) (h : ∀ o ∈ o?, o.ForbidsBetween)
    (hends : ∀ e, resolved.clause = .edge e → e.src.isSome = true ∧ e.dst.isSome = true) :
    o.ForbidsBetween := by
  refine closed_forbidsBetween.addClause (wellKinded_of_steps hadmits.steps) hadd
    (fun _ _ => trivial) h ?_
  rintro clause src edge dst rfl hnegated o₀ ho₀
  have hmem := hadmits.ends_mem hnegated
  rw [ho₀] at hmem
  obtain ⟨⟨-, hsrc, hsrcname⟩, -, -, hdst, hdstname⟩ := hadmits.steps.edge_spec
  obtain ⟨hsrcsome, hdstsome⟩ := hends clause rfl
  rw [← hsrcname] at hsrcsome
  rw [← hdstname] at hdstsome
  refine ⟨h o₀ ho₀, fun side hside => ?_⟩
  rcases List.mem_cons.1 hside with rfl | hside
  · refine ⟨src, hmem src List.mem_cons_self hsrcsome, hsrc, List.mem_append_left _ ?_⟩
    rw [Schema.endDemand, if_pos hsrcsome]
    exact List.mem_cons_self
  · obtain rfl := List.mem_singleton.1 hside
    refine ⟨dst, hmem dst (List.mem_cons_of_mem _ List.mem_cons_self) hdstsome, hdst,
      List.mem_append_right _ ?_⟩
    rw [Schema.endDemand, if_pos hdstsome]
    exact List.mem_cons_self

/-! ## Links -/

theorem Links.mem (h : o.Links v edge side) : v ∈ o.bindings ∧ edge ∈ o.bindings := by
  induction h with
  | meets hv => exact ⟨List.mem_append_left _ hv, List.mem_concat_self⟩
  | leadsTo hedge => exact ⟨List.mem_concat_self, List.mem_append_left _ hedge⟩
  | filters hv hedge => exact ⟨hv, hedge⟩
  | join b equalities _ ih => exact ⟨List.mem_append_left _ ih.1, List.mem_append_left _ ih.2⟩
  | filter equalities _ ih => exact ih
  | antiJoin tag ends b _ ih => exact ih

theorem closed_links (v edge : Binding) (side : String) : Closed (Links v edge side) :=
  ⟨fun h _ => h.join _ _, fun h _ => h.filter _⟩

/-- An end that is there is compared with the edge when this is added. -/
theorem links_addEdge (hend : (v, side) ∈ [(src, srcColumn), (dst, dstColumn)])
    (hv : v ∈ bindingsSoFar o?) : (addEdge o? src edge dst).Links v edge side := by
  cases o? with
  | none => exact absurd hv List.not_mem_nil
  | some o =>
    have hv : v ∈ o.bindings := hv
    have hmem : v.meets edge side ∈ boundEnds o.bindings edge.column src dst :=
      mem_boundEnds.2 ⟨v, side, hend, hv, rfl⟩
    show Outline.Links v edge side (if edge ∈ o.bindings then
        if (boundEnds o.bindings edge.column src dst).isEmpty then o
        else Outline.filter o (boundEnds o.bindings edge.column src dst)
      else Outline.join o edge (boundEnds o.bindings edge.column src dst))
    split
    · next hedge =>
      rw [if_neg fun hempty => ?_]
      · exact .filters hv hedge hmem
      · rw [List.isEmpty_iff.1 hempty] at hmem
        exact absurd hmem List.not_mem_nil
    · exact .meets hv hmem

section Ends

variable (hkinds : src.kind = .vertex ∧ edge.kind = .edge ∧ dst.kind = .vertex)

include hkinds

/-- An end that is looked up is compared with the edge. -/
theorem links_attachEnds (hedge : edge ∈ o.bindings) (hends : ∀ v ∈ ends, v.kind = .vertex)
    (hv : v ∈ ends) (hside : side ∈ endSides src dst v) :
    (ends.foldl (attachEnd src edge dst) o).Links v edge side := by
  induction ends generalizing o with
  | nil => exact absurd hv List.not_mem_nil
  | cons w ends ih =>
    obtain ⟨-, hrest⟩ := List.forall_mem_cons.1 hends
    rw [List.foldl_cons]
    have hedge' : edge ∈ (attachEnd src edge dst o w).bindings := List.mem_append_left _ hedge
    rcases List.mem_cons.1 hv with rfl | hv
    · have hlinks : (attachEnd src edge dst o v).Links v edge side :=
        .leadsTo hedge (List.mem_map_of_mem hside)
      exact (closed_links v edge side).attachEnds hlinks hedge' hkinds.2.1 hrest
    · exact ih hedge' hrest hv

/-- The ends that a positive edge clause names are linked to its edge. -/
theorem links_addEdgeClause (o? : Option Outline)
    (hend : (v, side) ∈ [(src, srcColumn), (dst, dstColumn)]) (hname : v.name.isSome = true) :
    (addEdgeClause o? src edge dst).Links v edge side := by
  obtain ⟨heq, -, hside⟩ := mem_sides hend
  have hedge := mem_bindings_addEdge o? src edge dst
  by_cases hv : v ∈ bindingsSoFar o?
  · exact (closed_links v edge side).attachEnds (links_addEdge hend hv) hedge hkinds.2.1
      (kind_newEnds hkinds)
  · refine links_attachEnds hkinds hedge (kind_newEnds hkinds) (mem_newEnds.2 ⟨heq, hname, ?_⟩) hside
    rw [bindings_addEdge, mem_carry]
    rintro (hmem | rfl)
    · exact hv hmem
    · have hvertex : v.kind = .vertex := by
        rcases heq with rfl | rfl
        · exact hkinds.1
        · exact hkinds.2.2
      exact absurd (hvertex.symm.trans hkinds.2.1) nofun

end Ends

/-- Later clauses keep what is linked. -/
theorem Links.addClauses {clauses : List ResolvedClause}
    (hkinds : ∀ c ∈ clauses, c.WellKinded) (h : o.Links v edge side) :
    ∀ o' ∈ addClauses (some o) index clauses, o'.Links v edge side := by
  induction clauses generalizing o index with
  | nil =>
    rintro o' ho'
    obtain rfl := Option.some.inj ho'
    exact h
  | cons resolved clauses ih =>
    obtain ⟨hkind, hkinds⟩ := List.forall_mem_cons.1 hkinds
    have hsome : ∃ o₁, Outline.addClause (some o) index resolved = some o₁ := by
      cases resolved with
      | vertex => exact ⟨_, rfl⟩
      | edge clause =>
        rw [Outline.addClause]
        split
        · exact ⟨_, rfl⟩
        · exact ⟨_, rfl⟩
    obtain ⟨o₁, hadd⟩ := hsome
    rw [Outline.addClauses, hadd]
    refine ih hkinds ((closed_links v edge side).addClause hkind hadd (by rintro ⟨⟩) ?_ ?_)
    · rintro o₀ ho₀
      obtain rfl := Option.some.inj ho₀
      exact h
    · rintro clause src edge' dst rfl - o₀ ho₀
      obtain rfl := Option.some.inj ho₀
      exact h.antiJoin _ _ edge'

/-- Every end that a positive clause names is linked to the edge of the clause. -/
theorem links_addClauses {clauses : List ResolvedClause} {clause : EdgeClause}
    (hkinds : ∀ c ∈ clauses, c.WellKinded) (hmem : .edge clause src edge dst ∈ clauses)
    (hpositive : clause.negated = false)
    (hend : (v, side) ∈ [(src, srcColumn), (dst, dstColumn)]) (hname : v.name.isSome = true) :
    ∀ o ∈ addClauses o? index clauses, o.Links v edge side := by
  induction clauses generalizing o? index with
  | nil => exact absurd hmem List.not_mem_nil
  | cons resolved clauses ih =>
    obtain ⟨hkind, hrest⟩ := List.forall_mem_cons.1 hkinds
    rcases List.mem_cons.1 hmem with rfl | hmem
    · rw [addClauses, addClause, if_neg (Bool.eq_false_iff.1 hpositive)]
      exact (links_addEdgeClause hkind o? hend hname).addClauses hrest
    · exact ih hrest hmem

/-! ## Scans -/

theorem mem_carriedAfter : b ∈ resolved.carriedAfter bs → b ∈ bs ∨ resolved.Scans b := by
  intro hb
  cases resolved with
  | vertex slot v => exact mem_carry.1 hb
  | edge clause src edge dst =>
    rw [ResolvedClause.carriedAfter] at hb
    cases hnegated : clause.negated with
    | true =>
      rw [if_pos hnegated] at hb
      exact .inl hb
    | false =>
      rw [if_neg (Bool.eq_false_iff.1 hnegated)] at hb
      rcases List.mem_append.1 hb with hb | hb
      · exact (mem_carry.1 hb).imp_right fun heq => ⟨hnegated, .inl heq⟩
      · obtain ⟨hend, hname, -⟩ := mem_newEnds.1 hb
        exact .inr ⟨hnegated, .inr ⟨hname, hend⟩⟩

/-- Every relation that is scanned is asked for by a clause. -/
theorem exists_scans {clauses : List ResolvedClause}
    (hb : b ∈ bindingsSoFar (addClauses o? index clauses)) :
    b ∈ bindingsSoFar o? ∨ ∃ resolved ∈ clauses, resolved.Scans b := by
  induction clauses generalizing o? index with
  | nil => exact .inl hb
  | cons resolved clauses ih =>
    rcases ih hb with hb | ⟨c, hc, hscans⟩
    · rw [bindingsSoFar_addClause] at hb
      exact (mem_carriedAfter hb).imp_right fun hscans => ⟨resolved, List.mem_cons_self, hscans⟩
    · exact .inr ⟨c, List.mem_cons_of_mem _ hc, hscans⟩

end Outline

end GraphMotif
