import GraphMotif.Proofs.Plan.Frontier
import GraphMotif.Proofs.Resolution.Resolve

/-!
# When patterns have plans

Resolving and compiling go together: after every clause the frontier carries exactly the named
bindings in scope and the nameless ones that a clause asks for. So no clause of a resolved pattern
is refused but a negated one at its start, every visible binding can be put out, and the plan is
sound.
-/

namespace GraphMotif

/-- The named bindings of a scope are carried. -/
def CarriesNamed (scope bs : List Binding) : Prop := ∀ b ∈ scope, b.name.isSome = true → b ∈ bs

variable {s : Schema} {scope scope' bs : List Binding} {f? : Option Frontier}
  {c : Clause} {resolved : ResolvedClause}

/-! ## One clause -/

/-- The bindings of an edge clause: their kinds, and that they are in scope. -/
theorem BindSteps.edge_spec {negated : Bool} {e : EdgeClause} {src edge dst : Binding}
    (hsteps : BindSteps negated scope (Clause.edge e).slots [src, edge, dst] scope') :
    (src ∈ scope' ∧ src.kind = .vertex ∧ src.name = e.src) ∧
      (edge ∈ scope' ∧ edge.kind = .edge ∧ edge.name = e.edge) ∧
        (dst ∈ scope' ∧ dst.kind = .vertex ∧ dst.name = e.dst) := by
  cases hsteps.spec with
  | cons hsrc hrest =>
  cases hrest with
  | cons hedge hrest =>
  cases hrest with
  | cons hdst _ => exact ⟨hsrc, hedge, hdst⟩

/-- A negated clause with names in scope has only carried bindings with a name. -/
theorem BindSteps.carried_of_negated {slots : List (Element × Slot)} {found : List Binding}
    (hsteps : BindSteps true scope slots found scope') (hnamed : CarriesNamed scope bs) :
    ∀ b ∈ found, b.name.isSome = true → b ∈ bs := fun b hb hname =>
  hnamed b (hsteps.mem_of_negated b (hsteps.found_subset b hb) hname) hname

theorem carriesNamed_carriedAfter (hclause : resolved.clause = c)
    (hsteps : BindSteps c.negated scope c.slots resolved.bindings scope')
    (hnamed : CarriesNamed scope bs) : CarriesNamed scope' (resolved.carriedAfter bs) := by
  intro b hb hname
  subst hclause
  cases resolved with
  | vertex slot v =>
    rcases hsteps.mem_or_found b hb with hb | hb
    · exact mem_carry.2 (.inl (hnamed b hb hname))
    · exact mem_carry.2 (.inr (List.mem_singleton.1 hb))
  | edge clause src edge dst =>
    rw [ResolvedClause.carriedAfter]
    cases hnegated : clause.negated with
    | true =>
      have hneg : (ResolvedClause.edge clause src edge dst).clause.negated = true := hnegated
      rw [hneg] at hsteps
      exact hnamed b (hsteps.mem_of_negated b hb hname) hname
    | false =>
      rw [if_neg Bool.false_ne_true, List.mem_append, mem_newEnds]
      -- a name in scope that is not carried yet is an end of this edge
      by_cases hcarry : b ∈ carry bs edge
      · exact .inl hcarry
      · refine .inr ⟨?_, hname, hcarry⟩
        rcases hsteps.mem_or_found b hb with hb | hb
        · exact absurd (mem_carry.2 (.inl (hnamed b hb hname))) hcarry
        · simp only [ResolvedClause.bindings, List.mem_cons, List.not_mem_nil, or_false] at hb
          rcases hb with rfl | rfl | rfl
          · exact .inl rfl
          · exact absurd (mem_carry.2 (.inr rfl)) hcarry
          · exact .inr rfl

/-- A resolved clause is added, unless it is negated and the first one. -/
theorem addClause_carries (index : Nat) (hclause : resolved.clause = c)
    (hsteps : BindSteps c.negated scope c.slots resolved.bindings scope') (hscope : Scope scope)
    (h : s.CarriesSoFar scope bs f?) (hnamed : CarriesNamed scope bs)
    (hfirst : f? = none → c.negated = false) :
    ∃ f, s.addClause f? index resolved = .ok f ∧
      f.Carries s scope' (resolved.carriedAfter bs) := by
  have hscope' := hsteps.scope hscope
  have h' : s.CarriesSoFar scope' bs f? := by
    cases f? with
    | none => exact h
    | some f => exact Frontier.Carries.mono h hscope' hsteps.subset
  subst hclause
  cases resolved with
  | vertex slot v =>
    cases hsteps.spec with
    | cons hv _ =>
      obtain ⟨hmem, hkind, -⟩ := hv
      exact ⟨_, rfl, Schema.addVertex_carries h' hscope' hmem hkind⟩
  | edge clause src edge dst =>
    obtain ⟨⟨hsrc, hsrckind, -⟩, ⟨hedge, hkind, -⟩, hdst, hdstkind, -⟩ := hsteps.edge_spec
    rw [Schema.addClause, ResolvedClause.carriedAfter]
    cases hnegated : clause.negated with
    | true =>
      have hneg : (ResolvedClause.edge clause src edge dst).clause.negated = true := hnegated
      rw [hneg] at hsteps hfirst
      cases f? with
      | none => cases hfirst rfl
      | some f =>
        have hcarried := hsteps.carried_of_negated hnamed
        exact ⟨_, Schema.addNegatedClause_eq h' index hcarried,
          Schema.addNegatedClause_carries h' index hcarried hsrckind hkind hdstkind⟩
    | false =>
      exact ⟨_, rfl,
        Schema.addEdgeClause_carries h' hscope' hsrc hedge hdst hsrckind hkind hdstkind⟩

/-! ## All clauses -/

/-- Resolved clauses are added, unless the first of all is negated. -/
theorem addClauses_carries {clauses : List Clause} {rest : List ResolvedClause} (index : Nat)
    (hscope : Scope scope) (hok : Resolution.resolveClauses scope clauses = .ok (rest, scope'))
    (h : s.CarriesSoFar scope bs f?) (hnamed : CarriesNamed scope bs)
    (hfirst : f? = none → ∀ c, clauses.head? = some c → c.negated = false) :
    ∃ f'? bs', s.addClauses f? index rest = .ok f'? ∧ s.CarriesSoFar scope' bs' f'? ∧
      CarriesNamed scope' bs' ∧ (f'? = none → f? = none ∧ clauses = []) := by
  induction clauses generalizing scope bs f? rest index with
  | nil =>
    obtain ⟨rfl, rfl⟩ := Prod.mk.inj (Except.ok.inj hok)
    exact ⟨f?, bs, rfl, h, hnamed, fun hnone => ⟨hnone, rfl⟩⟩
  | cons c clauses ih =>
    obtain ⟨resolved, scope₁, rest, hresolved, hrest, rfl⟩ := resolveClauses_cons_eq_ok_iff.1 hok
    obtain ⟨hclause, hsteps⟩ := (resolveClause_eq_ok_iff hscope).1 hresolved
    obtain ⟨f, hadd, hcarries⟩ := addClause_carries index hclause hsteps hscope h hnamed
      fun hnone => hfirst hnone c rfl
    have hcarries : s.CarriesSoFar scope₁ (resolved.carriedAfter bs) (some f) := hcarries
    obtain ⟨f'?, bs', hadds, hcarries', hnamed', hnone⟩ := ih (index + 1)
      (hsteps.scope hscope) hrest hcarries (carriesNamed_carriedAfter hclause hsteps hnamed) nofun
    refine ⟨f'?, bs', bind_eq_ok_iff.2 ⟨f, hadd, hadds⟩, hcarries', hnamed', fun hnone' => ?_⟩
    exact absurd (hnone hnone').1 nofun

/-- The bundle of a binding. -/
def Schema.bundle (s : Schema) (b : Binding) : Output where
  name := b.outputName
  attributes := s.columns b.kind
  columns := s.tagged b

namespace Frontier.Carries

variable {f : Frontier}

/-- The visible bindings of a scope can be put out. -/
theorem outputs_eq (h : f.Carries s scope bs) (hnamed : CarriesNamed scope bs) :
    (scope.filter Binding.visible).mapM (s.output f) =
      .ok ((scope.filter Binding.visible).map s.bundle) := by
  refine mapM_eq_ok_map fun b hb => ?_
  obtain ⟨hmem, hvisible⟩ := List.mem_filter.1 hb
  rw [Schema.output, (h.binds_iff hmem).2 (hnamed b hmem hvisible)]
  rfl

/-- The result of a pattern refers to columns that are there. -/
theorem check_project (h : f.Carries s scope bs) (hnamed : CarriesNamed scope bs) :
    (Plan.project f.plan ((scope.filter Binding.visible).map s.bundle)).check = .ok () := by
  refine Plan.check_project.2 ⟨fun o ho column hcolumn => ?_, h.check⟩
  obtain ⟨b, hb, rfl⟩ := List.mem_map.1 ho
  obtain ⟨hmem, hvisible⟩ := List.mem_filter.1 hb
  rw [h.columns]
  exact List.mem_flatMap.2 ⟨b, hnamed b hmem hvisible, hcolumn⟩

end Frontier.Carries

/-! ## Patterns -/

namespace Schema

/-- The plan of a pattern with clauses projects the frontier that its clauses lead to. -/
theorem compile_of_addClauses {r : Resolution} {f : Frontier} {outputs : List Output}
    (hne : r.pattern.isEmpty = false) (hadds : s.addClauses none 0 r.clauses = .ok (some f))
    (houtputs : r.outputs.mapM (s.output f) = .ok outputs)
    (hcheck : (Plan.project f.plan outputs).check = .ok ()) :
    s.compile r = .ok { child := f.plan, outputs, pattern := r.pattern.toText } := by
  rw [compile, if_neg (Bool.eq_false_iff.1 hne), hadds]
  simp only [bind, Except.bind, houtputs, MatchPlan.root, hcheck]
  rfl

/-- The plan of a pattern with clauses says which frontier its clauses led to. -/
theorem exists_frontier_of_compile {r : Resolution} {plan : MatchPlan}
    (hne : r.pattern.isEmpty = false) (h : s.compile r = .ok plan) :
    ∃ f, s.addClauses none 0 r.clauses = .ok (some f) ∧ plan.child = f.plan ∧
      r.outputs.mapM (s.output f) = .ok plan.outputs ∧ plan.root.check = .ok () := by
  rw [compile, if_neg (Bool.eq_false_iff.1 hne), bind_eq_ok_iff] at h
  obtain ⟨f?, hadds, h⟩ := h
  cases f? with
  | none => exact absurd h nofun
  | some f =>
    obtain ⟨outputs, houtputs, h⟩ := bind_eq_ok_iff.1 h
    obtain ⟨⟨⟩, hcheck, h⟩ := bind_eq_ok_iff.1 h
    obtain rfl := Except.ok.inj h
    exact ⟨f, hadds, rfl, houtputs, hcheck⟩

/-- A resolved pattern whose first clause is positive has a sound plan. -/
theorem exists_compile (s : Schema) {p : Pattern} {r : Resolution} (hr : p.resolve = .ok r)
    (hfirst : ∀ c, p.clauses.head? = some c → c.negated = false) :
    ∃ plan, s.compile r = .ok plan ∧ plan.root.check = .ok () := by
  obtain ⟨clauses, bindings, hok, -, rfl⟩ := Pattern.resolve_eq_ok_iff.1 hr
  cases hempty : p.isEmpty with
  | true => exact ⟨{ child := .empty [], outputs := [], pattern := p.toText },
      by rw [compile, if_pos hempty], rfl⟩
  | false =>
    have hnone : s.CarriesSoFar [] [] none := rfl
    obtain ⟨f?, bs, hadds, hcarries, hnamed, hsome⟩ := addClauses_carries 0 .nil hok hnone
      (fun b hb => absurd hb List.not_mem_nil) fun _ => hfirst
    -- a pattern with clauses leads to a frontier
    cases f? with
    | none =>
      rw [Pattern.isEmpty, (hsome rfl).2] at hempty
      exact absurd hempty nofun
    | some f =>
      have hcarries : f.Carries s bindings bs := hcarries
      have hcheck := hcarries.check_project hnamed
      exact ⟨_, compile_of_addClauses hempty hadds (hcarries.outputs_eq hnamed) hcheck, hcheck⟩

/-- A resolved pattern whose first clause is negated has no plan. -/
theorem compile_eq_error (s : Schema) {p : Pattern} {r : Resolution} (hr : p.resolve = .ok r)
    {c : Clause} (hfirst : p.clauses.head? = some c) (hnegated : c.negated = true) :
    ∃ e, s.compile r = .error (.unjoinable e) := by
  obtain ⟨clauses, bindings, hok, -, rfl⟩ := Pattern.resolve_eq_ok_iff.1 hr
  have hmap := map_clause_of_resolveClauses .nil hok
  cases clauses with
  | nil =>
    rw [← hmap] at hfirst
    exact absurd hfirst nofun
  | cons first rest =>
    rw [← hmap] at hfirst
    obtain rfl : first.clause = c := Option.some.inj hfirst
    have hne : p.isEmpty = false := by
      rw [Pattern.isEmpty, ← hmap]
      rfl
    cases first with
    | vertex => exact absurd hnegated nofun
    | edge clause src edge dst =>
      have hnegated : clause.negated = true := hnegated
      refine ⟨.negationFirst clause, ?_⟩
      rw [compile, if_neg (Bool.eq_false_iff.1 hne), addClauses, addClause, if_pos hnegated]
      rfl

/-- A well bound pattern has a sound plan, and any other one is refused as not joinable. -/
theorem compilePattern_cases (s : Schema) (p : Pattern) :
    (p.WellBound ∧ ∃ plan, s.compilePattern p = .ok plan ∧ plan.root.check = .ok ()) ∨
      (¬p.WellBound ∧ ∃ e, s.compilePattern p = .error (.unjoinable e)) := by
  by_cases h : p.WellBound
  · obtain ⟨⟨r, hr⟩, hfirst⟩ := Pattern.wellBound_iff.1 h
    obtain ⟨plan, hplan, hcheck⟩ := s.exists_compile hr hfirst
    exact .inl ⟨h, plan, by rw [compilePattern, hr]; exact hplan, hcheck⟩
  · refine .inr ⟨h, ?_⟩
    cases hr : p.resolve with
    | error e => exact ⟨e, by rw [compilePattern, hr]; rfl⟩
    | ok r =>
      have hfirst := mt (fun hfirst => Pattern.wellBound_iff.2 ⟨⟨r, hr⟩, hfirst⟩) h
      simp only [not_forall, Bool.not_eq_false, exists_prop] at hfirst
      obtain ⟨c, hc, hnegated⟩ := hfirst
      obtain ⟨e, he⟩ := s.compile_eq_error hr hc hnegated
      exact ⟨e, by rw [compilePattern, hr]; exact he⟩

theorem wellBound_of_compilePattern {s : Schema} {p : Pattern} {plan : MatchPlan}
    (h : s.compilePattern p = .ok plan) : p.WellBound := by
  rcases s.compilePattern_cases p with ⟨hbound, -⟩ | ⟨-, e, he⟩
  · exact hbound
  · exact absurd (he.symm.trans h) nofun

theorem check_of_compilePattern {s : Schema} {p : Pattern} {plan : MatchPlan}
    (h : s.compilePattern p = .ok plan) : plan.root.check = .ok () := by
  rcases s.compilePattern_cases p with ⟨-, plan', hplan', hcheck⟩ | ⟨-, e, he⟩
  · exact Except.ok.inj (hplan'.symm.trans h) ▸ hcheck
  · exact absurd (he.symm.trans h) nofun

/-- A pattern has a plan exactly if it is well bound, all other patterns are refused as not
joinable, and all plans are sound. -/
theorem compilePattern_eq_ok_iff_wellBound (s : Schema) (p : Pattern) :
    ((∃ plan, s.compilePattern p = .ok plan) ↔ p.WellBound) ∧
      (∀ e, s.compilePattern p = .error e → ∃ e', e = .unjoinable e') ∧
      ∀ plan, s.compilePattern p = .ok plan → plan.root.check = .ok () := by
  refine ⟨?_, ?_, fun plan => check_of_compilePattern⟩
  · constructor
    · rintro ⟨plan, hplan⟩
      exact wellBound_of_compilePattern hplan
    · intro h
      rcases s.compilePattern_cases p with ⟨-, plan, hplan, -⟩ | ⟨hnot, -⟩
      · exact ⟨plan, hplan⟩
      · exact absurd h hnot
  · intro e he
    rcases s.compilePattern_cases p with ⟨-, plan, hplan, -⟩ | ⟨-, e', he'⟩
    · exact absurd (hplan.symm.trans he) nofun
    · exact ⟨e', Except.error.inj (he.symm.trans he')⟩

end Schema

end GraphMotif
