import GraphMotif.Proofs.Plan.Compile

/-!
# Outlines of plans

Which relations the plan of a pattern scans, in which order it joins them, and which reserved
columns it compares, can be told before the columns of the relations are known. The other columns
enter only the scans and the equalities of a negated clause that names an edge. So one outline of a
pattern stands for its plans over all schemas.
-/

namespace GraphMotif

/-- The plan of a pattern before the columns of the relations are known. -/
inductive Outline where
  /-- The rows of the relation of a binding. -/
  | scan (b : Binding)
  /-- A join with the relation of one more binding. -/
  | join (o : Outline) (b : Binding) (equalities : List Equality)
  | filter (o : Outline) (equalities : List Equality)
  /-- An anti-join with edges scanned under a tag: those that meet the demands on their ends and are
  the edge of the binding, if it has a name. -/
  | antiJoin (o : Outline) (tag : String) (ends : List Equality) (edge : Binding)

namespace Outline

/-- The bindings whose relations stand side by side in the rows. -/
def bindings : Outline → List Binding
  | scan b => [b]
  | join o b _ => o.bindings ++ [b]
  | filter o _ | antiJoin o .. => o.bindings

/-- The plan over a schema. -/
def plan (s : Schema) : Outline → Plan
  | scan b => s.scan b.kind b.column
  | join o b equalities => .join (o.plan s) (s.scan b.kind b.column) equalities
  | filter o equalities => .filter (o.plan s) equalities
  | antiJoin o tag ends edge =>
    .antiJoin (o.plan s) (s.scan .edge tag) (ends ++ s.edgeDemand tag edge)

/-- What is asked of every anti-join: of the outline below it, the demands on ends and the edge. -/
def AntiJoins (P : Outline → List Equality → Binding → Prop) : Outline → Prop
  | scan _ => True
  | join o .. | filter o _ => o.AntiJoins P
  | antiJoin o _ ends edge => o.AntiJoins P ∧ P o ends edge

/-- An outline without anti-joins. -/
def Positive : Outline → Prop := AntiJoins fun _ _ _ => False

/-- The edges that anti-joins name are there, and the demands on ends do not refer to them. -/
def Sound : Outline → Prop := AntiJoins fun o ends edge => edge.name.isSome = true →
  edge ∈ o.bindings ∧ edge.kind = .edge ∧ ∀ e ∈ ends, ∀ column, e.left ≠ qualified edge.column column

/-! ## The outline of clauses -/

/-- The identities of those ends of an edge that are there, each with the column of the edge that it
must agree with. -/
def boundEnds (bs : List Binding) (tag : String) (src dst : Binding) : List Equality :=
  [(src, srcColumn), (dst, dstColumn)].filterMap fun (v, side) =>
    if v ∈ bs then some { left := v.idColumn, right := qualified tag side } else none

/-- Adds a vertex clause. -/
def addVertex (o? : Option Outline) (v : Binding) : Outline :=
  match o? with
  | none => scan v
  | some o => if v ∈ o.bindings then o else join o v []

/-- Adds the edge of a positive edge clause. -/
def addEdge (o? : Option Outline) (src edge dst : Binding) : Outline :=
  match o? with
  | none => scan edge
  | some o =>
    let equalities := boundEnds o.bindings edge.column src dst
    if edge ∈ o.bindings then if equalities.isEmpty then o else filter o equalities
    else join o edge equalities

/-- Looks up an end of an edge. -/
def attachEnd (src edge dst : Binding) (o : Outline) (v : Binding) : Outline :=
  join o v ((endSides src dst v).map fun side =>
    { left := qualified edge.column side, right := v.idColumn })

/-- Adds a positive edge clause. -/
def addEdgeClause (o? : Option Outline) (src edge dst : Binding) : Outline :=
  let o := addEdge o? src edge dst
  (newEnds o.bindings src dst).foldl (attachEnd src edge dst) o

/-- The demands on the ends of the edges that a negated clause forbids. -/
def negatedEnds (tag : String) (src dst : Binding) : List Equality :=
  Schema.endDemand tag src srcColumn ++ Schema.endDemand tag dst dstColumn

/-- Adds the negated clause with a number. -/
def addNegatedClause (o : Outline) (index : Nat) (src edge dst : Binding) : Outline :=
  antiJoin o (Schema.negatedTag index) (negatedEnds (Schema.negatedTag index) src dst) edge

/-- Adds the clause with a number. A negated clause at the start has no outline. -/
def addClause (o? : Option Outline) (index : Nat) : ResolvedClause → Option Outline
  | .vertex _ v => some (addVertex o? v)
  | .edge clause src edge dst =>
    if clause.negated then o?.map fun o => o.addNegatedClause index src edge dst
    else some (addEdgeClause o? src edge dst)

/-- Adds clauses, the first of them with a number. -/
def addClauses (o? : Option Outline) (index : Nat) : List ResolvedClause → Option Outline
  | [] => o?
  | clause :: clauses => addClauses (addClause o? index clause) (index + 1) clauses

/-- The bindings of an outline, if there is one. -/
def bindingsSoFar (o? : Option Outline) : List Binding := (o?.map bindings).getD []

variable {s : Schema} {scope scope' : List Binding} {o o' : Outline} {o? o'? : Option Outline}
  {f : Frontier} {f? f'? : Option Frontier} {src edge dst v : Binding} {index : Nat} {c : Clause}
  {resolved : ResolvedClause} {ends : List Binding}

theorem bindings_addVertex (o? : Option Outline) (v : Binding) :
    (addVertex o? v).bindings = carry (bindingsSoFar o?) v := by
  cases o? with
  | none => rfl
  | some o =>
    show Outline.bindings (if v ∈ o.bindings then o else join o v []) = carry o.bindings v
    unfold carry
    split <;> rfl

theorem bindings_addEdge (o? : Option Outline) (src edge dst : Binding) :
    (addEdge o? src edge dst).bindings = carry (bindingsSoFar o?) edge := by
  cases o? with
  | none => rfl
  | some o =>
    show Outline.bindings (if edge ∈ o.bindings then
        if (boundEnds o.bindings edge.column src dst).isEmpty then o
        else filter o (boundEnds o.bindings edge.column src dst)
      else join o edge (boundEnds o.bindings edge.column src dst)) = carry o.bindings edge
    unfold carry
    split
    · split <;> rfl
    · rfl

theorem bindings_attachEnds (o : Outline) (src edge dst : Binding) (ends : List Binding) :
    (ends.foldl (attachEnd src edge dst) o).bindings = o.bindings ++ ends := by
  induction ends generalizing o with
  | nil => rw [List.foldl_nil, List.append_nil]
  | cons v ends ih =>
    rw [List.foldl_cons, ih, attachEnd, bindings, List.append_assoc, List.singleton_append]

/-- A clause adds the bindings that a frontier carries after it. -/
theorem bindings_addClause (h : addClause o? index resolved = some o) :
    o.bindings = resolved.carriedAfter (bindingsSoFar o?) := by
  cases resolved with
  | vertex slot v =>
    obtain rfl := Option.some.inj h
    exact bindings_addVertex o? v
  | edge clause src edge dst =>
    rw [addClause] at h
    rw [ResolvedClause.carriedAfter]
    by_cases hnegated : clause.negated = true
    · rw [if_pos hnegated] at h ⊢
      obtain ⟨o₀, rfl, rfl⟩ := Option.map_eq_some_iff.1 h
      rfl
    · rw [if_neg hnegated] at h ⊢
      obtain rfl := Option.some.inj h
      rw [addEdgeClause, bindings_attachEnds, bindings_addEdge]

/-! ## Anti-joins of clauses -/

section AntiJoins

variable {P : Outline → List Equality → Binding → Prop}

theorem antiJoins_addVertex (h : ∀ o ∈ o?, o.AntiJoins P) (v : Binding) :
    (addVertex o? v).AntiJoins P := by
  cases o? with
  | none => trivial
  | some o =>
    have h : o.AntiJoins P := h o rfl
    show Outline.AntiJoins P (if v ∈ o.bindings then o else join o v [])
    split <;> exact h

theorem antiJoins_addEdge (h : ∀ o ∈ o?, o.AntiJoins P) (src edge dst : Binding) :
    (addEdge o? src edge dst).AntiJoins P := by
  cases o? with
  | none => trivial
  | some o =>
    have h : o.AntiJoins P := h o rfl
    show Outline.AntiJoins P (if edge ∈ o.bindings then
        if (boundEnds o.bindings edge.column src dst).isEmpty then o
        else filter o (boundEnds o.bindings edge.column src dst)
      else join o edge (boundEnds o.bindings edge.column src dst))
    split
    · split <;> exact h
    · exact h

theorem antiJoins_attachEnds (h : o.AntiJoins P) (src edge dst : Binding) (ends : List Binding) :
    (ends.foldl (attachEnd src edge dst) o).AntiJoins P := by
  induction ends generalizing o with
  | nil => exact h
  | cons v ends ih => exact ih (o := attachEnd src edge dst o v) h

/-- Only a negated clause adds an anti-join. -/
theorem antiJoins_addClause (hadd : addClause o? index resolved = some o)
    (h : ∀ o ∈ o?, o.AntiJoins P)
    (hnegated : ∀ clause src edge dst, resolved = .edge clause src edge dst →
      clause.negated = true → ∀ o ∈ o?, P o (negatedEnds (Schema.negatedTag index) src dst) edge) :
    o.AntiJoins P := by
  cases resolved with
  | vertex slot v =>
    obtain rfl := Option.some.inj hadd
    exact antiJoins_addVertex h v
  | edge clause src edge dst =>
    rw [addClause] at hadd
    by_cases hclause : clause.negated = true
    · rw [if_pos hclause] at hadd
      obtain ⟨o₀, rfl, rfl⟩ := Option.map_eq_some_iff.1 hadd
      exact ⟨h o₀ rfl, hnegated clause src edge dst rfl hclause o₀ rfl⟩
    · rw [if_neg hclause] at hadd
      obtain rfl := Option.some.inj hadd
      exact antiJoins_attachEnds (antiJoins_addEdge h src edge dst) src edge dst _

/-- Positive clauses add no anti-join. -/
theorem positive_addClauses {clauses : List ResolvedClause}
    (hpositive : ∀ c ∈ clauses, c.negated = false) (h : ∀ o ∈ o?, o.Positive) :
    ∀ o ∈ addClauses o? index clauses, o.Positive := by
  induction clauses generalizing o? index with
  | nil => exact h
  | cons resolved clauses ih =>
    obtain ⟨hfirst, hpositive⟩ := List.forall_mem_cons.1 hpositive
    refine ih hpositive fun o ho => antiJoins_addClause ho h ?_
    rintro clause src edge dst rfl hnegated
    exact absurd (hfirst.symm.trans hnegated) nofun

end AntiJoins

/-! ## Outlines draw plans -/

/-- A frontier over a schema is drawn by an outline. -/
structure Draws (s : Schema) (scope : List Binding) (o : Outline) (f : Frontier) : Prop where
  carries : f.Carries s scope o.bindings
  plan : f.plan = o.plan s
  sound : o.Sound

/-- What is drawn so far; without a frontier nothing is. -/
def DrawsSoFar (s : Schema) (scope : List Binding) (o? : Option Outline) (f? : Option Frontier) : Prop :=
  match o?, f? with
  | none, none => True
  | some o, some f => o.Draws s scope f
  | _, _ => False

theorem DrawsSoFar.carries (h : DrawsSoFar s scope o? f?) :
    s.CarriesSoFar scope (bindingsSoFar o?) f? := by
  cases o? <;> cases f?
  · rfl
  · exact h.elim
  · exact h.elim
  · exact Draws.carries h

theorem DrawsSoFar.mono (h : DrawsSoFar s scope o? f?) (hscope : Scope scope')
    (hsub : ∀ b ∈ scope, b ∈ scope') : DrawsSoFar s scope' o? f? := by
  cases o? <;> cases f?
  · trivial
  · exact h.elim
  · exact h.elim
  · exact ⟨(Draws.carries h).mono hscope hsub, Draws.plan h, Draws.sound h⟩

theorem DrawsSoFar.sound (h : DrawsSoFar s scope o? f?) : ∀ o ∈ o?, o.Sound := by
  rintro o rfl
  cases f?
  · exact h.elim
  · exact Draws.sound h

theorem plan_addVertex (h : DrawsSoFar s scope o? f?) (hv : v ∈ scope) (hkind : v.kind = .vertex) :
    (s.addVertex f? v).plan = (addVertex o? v).plan s := by
  cases o? <;> cases f?
  · show s.scan .vertex v.column = s.scan v.kind v.column
    rw [hkind]
  · exact h.elim
  · exact h.elim
  · next o f =>
    have h : o.Draws s scope f := h
    simp only [Schema.addVertex, addVertex, h.carries.binds_iff hv]
    split
    · exact h.plan
    · rw [Frontier.extend, Outline.plan, h.plan, hkind]

theorem endEqualities_eq (h : o.Draws s scope f) (tag : String) (hsrc : src ∈ scope)
    (hdst : dst ∈ scope) :
    Schema.endEqualities f tag src dst = boundEnds o.bindings tag src dst := by
  refine List.filterMap_congr fun x hx => ?_
  have hscope : x.1 ∈ scope := by
    rcases List.mem_cons.1 hx with rfl | hx
    · exact hsrc
    · rw [List.mem_singleton.1 hx]
      exact hdst
  simp only [h.carries.binds_iff hscope]

theorem plan_addEdge (h : DrawsSoFar s scope o? f?) (hsrc : src ∈ scope) (hedge : edge ∈ scope)
    (hdst : dst ∈ scope) (hkind : edge.kind = .edge) :
    (s.addEdge f? src edge dst).plan = (addEdge o? src edge dst).plan s := by
  cases o? <;> cases f?
  · show s.scan .edge edge.column = s.scan edge.kind edge.column
    rw [hkind]
  · exact h.elim
  · exact h.elim
  · next o f =>
    have h : o.Draws s scope f := h
    simp only [Schema.addEdge, addEdge, h.carries.binds_iff hedge,
      endEqualities_eq h edge.column hsrc hdst]
    split
    · split
      · exact h.plan
      · rw [Frontier.withPlan, Outline.plan, h.plan]
    · rw [Frontier.extend, Outline.plan, h.plan, hkind]

theorem plan_attachEnds (h : f.plan = o.plan s) (hends : ∀ v ∈ ends, v.kind = .vertex) :
    ((ends.map fun v => (v, endSides src dst v)).foldl (s.attachEnd edge) f).plan =
      (ends.foldl (attachEnd src edge dst) o).plan s := by
  induction ends generalizing f o with
  | nil => exact h
  | cons v ends ih =>
    obtain ⟨hv, hends⟩ := List.forall_mem_cons.1 hends
    refine ih ?_ hends
    simp only [Schema.attachEnd, Frontier.extend, attachEnd, Outline.plan, h, hv]

/-- The demands on the ends of a forbidden edge refer to vertices, and so not to an edge. -/
theorem left_ne_of_mem_negatedEnds {tag : String} {e : Equality} (hscope : Scope scope)
    (hsrc : src ∈ scope) (hsrckind : src.kind = .vertex) (hdst : dst ∈ scope)
    (hdstkind : dst.kind = .vertex) (hedge : edge ∈ scope) (hkind : edge.kind = .edge)
    (he : e ∈ negatedEnds tag src dst) (column : String) :
    e.left ≠ qualified edge.column column := by
  have hend {v : Binding} {side : String} (hv : v ∈ scope) (hvkind : v.kind = .vertex)
      (he : e ∈ Schema.endDemand tag v side) : e.left ≠ qualified edge.column column := by
    rw [Schema.endDemand] at he
    split at he
    · obtain rfl := List.mem_singleton.1 he
      intro heq
      have hcolumn := ((qualified_inj (hscope.isTag_column hv) (hscope.isTag_column hedge)).1 heq).1
      rw [hscope.column_inj hv hedge hcolumn, hkind] at hvkind
      cases hvkind
    · exact absurd he List.not_mem_nil
  rcases List.mem_append.1 he with he | he
  · exact hend hsrc hsrckind he
  · exact hend hdst hdstkind he

/-- Without a frontier there is no plan of a negated clause. -/
theorem negated_eq_false_of_addClause (hadd : s.addClause none index resolved = .ok f) :
    resolved.clause.negated = false := by
  cases resolved with
  | vertex => rfl
  | edge clause src edge dst =>
    by_cases hnegated : clause.negated = true
    · rw [Schema.addClause, if_pos hnegated] at hadd
      cases hadd
    · exact Bool.not_eq_true _ ▸ hnegated

theorem plan_addNegatedClause {clause : EdgeClause} (h : DrawsSoFar s scope o? f?)
    (hcarried : ∀ b ∈ [src, edge, dst], b.name.isSome = true → b ∈ bindingsSoFar o?)
    (hadd : s.addNegatedClause f? index clause src edge dst = .ok f) :
    ∃ o, o?.map (fun o => o.addNegatedClause index src edge dst) = some o ∧ f.plan = o.plan s := by
  cases o? <;> cases f?
  · exact absurd hadd nofun
  · exact h.elim
  · exact h.elim
  · next o f₀ =>
    have h : o.Draws s scope f₀ := h
    rw [Schema.addNegatedClause_eq h.carries index hcarried] at hadd
    obtain rfl := Except.ok.inj hadd
    refine ⟨_, rfl, ?_⟩
    show Plan.antiJoin f₀.plan _ _ = Plan.antiJoin (o.plan s) _ _
    rw [h.plan]
    rfl

/-- The plan that a clause makes of the frontier is the plan of the outline that it makes. -/
theorem plan_addClause (hclause : resolved.clause = c)
    (hsteps : BindSteps c.negated scope c.slots resolved.bindings scope') (hscope : Scope scope')
    (h : DrawsSoFar s scope' o? f?) (hnamed : CarriesNamed scope (bindingsSoFar o?))
    (hadd : s.addClause f? index resolved = .ok f) :
    ∃ o, addClause o? index resolved = some o ∧ f.plan = o.plan s := by
  subst hclause
  cases resolved with
  | vertex slot v =>
    cases hsteps.spec with
    | cons hv _ =>
      obtain ⟨hmem, hkind, -⟩ := hv
      obtain rfl := Except.ok.inj hadd
      exact ⟨_, rfl, plan_addVertex h hmem hkind⟩
  | edge clause src edge dst =>
    obtain ⟨⟨hsrc, hsrckind, -⟩, ⟨hedge, hkind, -⟩, hdst, hdstkind, -⟩ := hsteps.edge_spec
    rw [Schema.addClause] at hadd
    rw [addClause]
    by_cases hnegated : clause.negated = true
    · have hneg : (ResolvedClause.edge clause src edge dst).clause.negated = true := hnegated
      rw [hneg] at hsteps
      rw [if_pos hnegated] at hadd ⊢
      exact plan_addNegatedClause h (hsteps.carried_of_negated hnamed) hadd
    · rw [if_neg hnegated] at hadd ⊢
      obtain rfl := Except.ok.inj hadd
      refine ⟨_, rfl, ?_⟩
      have hcarries := Schema.addEdge_carries h.carries hscope hsrc hedge hdst hsrckind hkind hdstkind
      rw [Schema.addEdgeClause, addEdgeClause, hcarries.pendingEnds_eq hsrc hdst, bindings_addEdge]
      refine plan_attachEnds (plan_addEdge h hsrc hedge hdst hkind) fun v hv => ?_
      rcases (mem_newEnds.1 hv).1 with rfl | rfl
      · exact hsrckind
      · exact hdstkind

/-- A clause keeps an outline sound. -/
theorem sound_addClause (hclause : resolved.clause = c)
    (hsteps : BindSteps c.negated scope c.slots resolved.bindings scope') (hscope : Scope scope')
    (hnamed : CarriesNamed scope (bindingsSoFar o?)) (hadd : addClause o? index resolved = some o)
    (hsound : ∀ o ∈ o?, o.Sound) : o.Sound := by
  refine antiJoins_addClause hadd hsound ?_
  rintro clause src edge dst rfl hnegated o₀ rfl hname
  have hneg : c.negated = true := hclause ▸ hnegated
  obtain rfl := hclause
  obtain ⟨⟨hsrc, hsrckind, -⟩, ⟨hedge, hkind, -⟩, hdst, hdstkind, -⟩ := hsteps.edge_spec
  rw [hneg] at hsteps
  have hmem : edge ∈ bindingsSoFar (some o₀) :=
    hsteps.carried_of_negated hnamed edge (List.mem_cons_of_mem _ List.mem_cons_self) hname
  exact ⟨hmem, hkind, fun e he =>
    left_ne_of_mem_negatedEnds hscope hsrc hsrckind hdst hdstkind hedge hkind he⟩

/-- The outline of a clause draws what the clause makes of the frontier. -/
theorem addClause_draws (hclause : resolved.clause = c)
    (hsteps : BindSteps c.negated scope c.slots resolved.bindings scope') (hscope : Scope scope)
    (h : DrawsSoFar s scope o? f?) (hnamed : CarriesNamed scope (bindingsSoFar o?))
    (hadd : s.addClause f? index resolved = .ok f) :
    ∃ o, addClause o? index resolved = some o ∧ o.Draws s scope' f := by
  have hfirst : f? = none → c.negated = false := by
    rintro rfl
    rw [← hclause]
    exact negated_eq_false_of_addClause hadd
  obtain ⟨f', hf', hcarries⟩ := addClause_carries index hclause hsteps hscope h.carries hnamed hfirst
  obtain rfl := Except.ok.inj (hf'.symm.trans hadd)
  have hscope' : Scope scope' := hsteps.scope hscope
  obtain ⟨o, ho, hplan⟩ :=
    plan_addClause hclause hsteps hscope' (h.mono hscope' hsteps.subset) hnamed hadd
  exact ⟨o, ho, bindings_addClause ho ▸ hcarries, hplan,
    sound_addClause hclause hsteps hscope' hnamed ho h.sound⟩

/-- The outline of clauses draws the plan that they lead to. -/
theorem addClauses_draws {clauses : List Clause} {rest : List ResolvedClause} (hscope : Scope scope)
    (hok : Resolution.resolveClauses scope clauses = .ok (rest, scope'))
    (h : DrawsSoFar s scope o? f?) (hnamed : CarriesNamed scope (bindingsSoFar o?))
    (hadds : s.addClauses f? index rest = .ok f'?) :
    DrawsSoFar s scope' (addClauses o? index rest) f'? ∧
      CarriesNamed scope' (bindingsSoFar (addClauses o? index rest)) := by
  induction clauses generalizing scope o? f? rest index with
  | nil =>
    obtain ⟨rfl, rfl⟩ := Prod.mk.inj (Except.ok.inj hok)
    obtain rfl := Except.ok.inj hadds
    exact ⟨h, hnamed⟩
  | cons c clauses ih =>
    obtain ⟨resolved, scope₁, rest, hresolved, hrest, rfl⟩ := resolveClauses_cons_eq_ok_iff.1 hok
    obtain ⟨hclause, hsteps⟩ := (resolveClause_eq_ok_iff hscope).1 hresolved
    obtain ⟨f, hadd, hadds⟩ := bind_eq_ok_iff.1 hadds
    obtain ⟨o, ho, hdraws⟩ := addClause_draws hclause hsteps hscope h hnamed hadd
    rw [addClauses, ho]
    have hdrawn : DrawsSoFar s scope₁ (some o) (some f) := hdraws
    refine ih (hsteps.scope hscope) hrest hdrawn ?_ hadds
    show CarriesNamed scope₁ o.bindings
    rw [bindings_addClause ho]
    exact carriesNamed_carriedAfter hclause hsteps hnamed

/-- Clauses that lead to a plan have an outline that draws it. -/
theorem exists_draws {clauses : List Clause} {resolved : List ResolvedClause}
    (hok : Resolution.resolveClauses [] clauses = .ok (resolved, scope))
    (hadds : s.addClauses none 0 resolved = .ok (some f)) :
    ∃ o, addClauses none 0 resolved = some o ∧ o.Draws s scope f ∧
      CarriesNamed scope o.bindings := by
  have hstart : DrawsSoFar s [] none none := trivial
  obtain ⟨hdraws, hnamed⟩ := addClauses_draws .nil hok hstart
    (fun b hb => absurd hb List.not_mem_nil) hadds
  cases houtline : addClauses none 0 resolved with
  | none =>
    rw [houtline] at hdraws
    exact hdraws.elim
  | some o =>
    rw [houtline] at hdraws hnamed
    exact ⟨o, rfl, hdraws, hnamed⟩

end Outline

end GraphMotif
