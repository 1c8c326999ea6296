import GraphMotif.Proofs.Graph.Clauses
import GraphMotif.Proofs.Graph.Order

/-!
# Finding occurrences

Clause by clause, the frontier finds the assignments that satisfy the clauses so far, for exactly
the elements that these ask for. So the result of a pattern has a row for each of its occurrences.
-/

namespace GraphMotif

/-- The elements that are there after the clause with a number, with their bindings. -/
def ResolvedClause.seated (carried : List (Site × Binding)) (index : Nat) :
    ResolvedClause → List (Site × Binding)
  | vertex _ v => seat carried v index
  | edge clause src e dst =>
    if clause.negated then carried
    else seat carried e index ++
      (newEnds (carry (carried.map Prod.snd) e) src dst).map fun v => (v.site index, v)

variable {scope scope' : List Binding} {limit : Nat} {carried : List (Site × Binding)}
  {c : Clause} {resolved : ResolvedClause}

theorem BindSteps.fresh_notMem {negated : Bool} {slots : List (Element × Slot)}
    {found : List Binding} (hsteps : BindSteps negated scope slots found scope')
    (hsited : Sited scope limit carried) :
    ∀ b ∈ found, b.name = none → b ∉ carried.map Prod.snd := by
  intro b hb hname hmem
  obtain ⟨x, hx, rfl⟩ := List.mem_map.1 hmem
  exact hsteps.notMem_of_nameless hsited.isScope _ hb hname (hsited.subset x hx)

theorem Sited.bind (hsited : Sited scope limit carried) {negated : Bool}
    {slots : List (Element × Slot)} {found : List Binding}
    (hsteps : BindSteps negated scope slots found scope') : Sited scope' limit carried :=
  hsited.mono (hsteps.scope hsited.isScope) hsteps.subset (Nat.le_refl limit)

/-- The bindings that are there after a clause are those that the frontier carries. -/
theorem map_snd_seated (hclause : resolved.clause = c)
    (hsteps : BindSteps c.negated scope c.slots resolved.bindings scope')
    (hsited : Sited scope limit carried) :
    (resolved.seated carried limit).map Prod.snd =
      resolved.carriedAfter (carried.map Prod.snd) := by
  have hfresh := hsteps.fresh_notMem hsited
  have hsited' := hsited.bind hsteps
  have hfound := hsteps.found_subset
  cases resolved with
  | vertex slot v =>
    exact hsited'.map_snd_seat (hfound v List.mem_cons_self) (hfresh v List.mem_cons_self)
  | edge clause src b dst =>
    have hb : b ∈ (ResolvedClause.edge clause src b dst).bindings :=
      List.mem_cons_of_mem _ List.mem_cons_self
    rw [ResolvedClause.seated, ResolvedClause.carriedAfter]
    split
    · rfl
    · rw [List.map_append, List.map_map, hsited'.map_snd_seat (hfound b hb) (hfresh b hb)]
      exact congrArg _ (List.map_id _)

/-- With the new ends of an edge, all ends that its clause names are there. -/
theorem mem_sites_newEnds (hsited : Sited scope limit carried) {e : EdgeClause}
    {src b dst : Binding} (hkind : b.kind = .edge)
    (hends : ∀ v ∈ [src, dst], v ∈ scope ∧ v.kind = .vertex) (hsrc : src.name = e.src)
    (hdst : dst.name = e.dst) (s : Site) :
    (s ∈ carried.map Prod.fst ∨
        s ∈ (newEnds (carry (carried.map Prod.snd) b) src dst).map (·.site limit)) ↔
      s ∈ carried.map Prod.fst ∨ s ∈ e.src.toList.map (Site.named .vertex) ∨
        s ∈ e.dst.toList.map (Site.named .vertex) := by
  -- an end that is not new is there already
  have hend {v : Binding} {slot : Slot} (hv : v = src ∨ v = dst) (hvname : v.name = slot)
      (hs : s ∈ slot.toList.map (Site.named .vertex)) : s ∈ carried.map Prod.fst ∨
        s ∈ (newEnds (carry (carried.map Prod.snd) b) src dst).map (·.site limit) := by
    obtain ⟨name, hslot, rfl⟩ := List.mem_map.1 hs
    obtain ⟨hscope, hvkind⟩ := hends v (List.mem_cons.2 (hv.imp_right List.mem_singleton.2))
    have hvname := hvname.trans (Option.mem_toList.1 hslot)
    have hiff := hsited.named_mem_iff hscope hvname
    rw [hvkind] at hiff
    by_cases hmem : v ∈ carried.map Prod.snd
    · exact .inl (hiff.2 hmem)
    · have hnew := Graph.mem_newEnds_of_notMem hkind hvkind hv (hvname ▸ rfl) hmem
      refine .inr (List.mem_map.2 ⟨v, hnew, ?_⟩)
      rw [Binding.site_of_name hvname, hvkind]
  constructor
  · rintro (hs | hs)
    · exact .inl hs
    · obtain ⟨v, hv, rfl⟩ := List.mem_map.1 hs
      obtain ⟨hvend, hvname, -⟩ := mem_newEnds.1 hv
      have hvkind := (hends v (List.mem_cons.2 (hvend.imp_right List.mem_singleton.2))).2
      obtain ⟨name, hvname⟩ := Option.isSome_iff_exists.1 hvname
      rw [Binding.site_of_name hvname, hvkind]
      rcases hvend with rfl | rfl
      · rw [← hsrc, hvname]
        exact .inr (.inl (List.mem_singleton.2 rfl))
      · rw [← hdst, hvname]
        exact .inr (.inr (List.mem_singleton.2 rfl))
  · rintro (hs | hs | hs)
    · exact .inl hs
    · exact hend (.inl rfl) hsrc hs
    · exact hend (.inr rfl) hdst hs

/-- A clause adds the elements that it asks for. -/
theorem mem_sites_seated (hclause : resolved.clause = c)
    (hsteps : BindSteps c.negated scope c.slots resolved.bindings scope')
    (hsited : Sited scope limit carried) (s : Site) :
    s ∈ (resolved.seated carried limit).map Prod.fst ↔
      s ∈ carried.map Prod.fst ∨ s ∈ c.sites limit := by
  subst hclause
  cases resolved with
  | vertex slot v =>
    cases hsteps.spec with
    | cons hv _ =>
      obtain ⟨-, hkind, hname⟩ := hv
      have hsite : v.site limit = slot.site .vertex limit := by
        rw [Binding.site, hkind, hname]
      rw [ResolvedClause.seated, mem_sites_seat, hsite]
      exact or_congr_right List.mem_singleton.symm
  | edge clause src b dst =>
    obtain ⟨⟨hsrc, hsrckind, hsrcname⟩, ⟨-, hkind, hname⟩, hdst, hdstkind, hdstname⟩ :=
      hsteps.edge_spec
    have hsite : b.site limit = clause.edge.site .edge limit := by
      rw [Binding.site, hkind, hname]
    simp only [ResolvedClause.seated, ResolvedClause.clause, Clause.sites]
    split
    · rw [or_iff_left List.not_mem_nil]
    · have hnew := mem_sites_newEnds (hsited.bind hsteps) hkind
        (List.forall_mem_cons.2 ⟨⟨hsrc, hsrckind⟩, List.forall_mem_singleton.2 ⟨hdst, hdstkind⟩⟩)
        hsrcname hdstname s
      rw [List.map_append, List.map_map, List.mem_append, mem_sites_seat, or_right_comm]
      refine (or_congr_left hnew).trans ?_
      rw [hsite, List.mem_append, List.mem_cons, or_assoc, or_assoc]
      exact or_congr_right (or_congr_right or_comm)

namespace Graph

variable {g : Graph} {p : Pattern} {f : Frontier} {f? f'? : Option Frontier} {done clauses : List Clause}
  {rest : List ResolvedClause} {cond : Assignment → Bool}

theorem FindsSoFar.bind (h : g.FindsSoFar p scope limit f? carried cond) {negated : Bool}
    {slots : List (Element × Slot)} {found : List Binding}
    (hsteps : BindSteps negated scope slots found scope') :
    g.FindsSoFar p scope' limit f? carried cond := by
  cases f? with
  | none => exact ⟨hsteps.scope h.1, h.2⟩
  | some f => exact Finds.mono h (hsteps.scope (Finds.sited h).isScope) hsteps.subset (Nat.le_refl _)

/-- A clause narrows the search to the assignments that satisfy it. -/
theorem addClause_finds (hsteady : g.SteadyKeys p) (hc : c ∈ p.clauses) (hclause : resolved.clause = c)
    (hsteps : BindSteps c.negated scope c.slots resolved.bindings scope')
    (h : g.FindsSoFar p scope limit f? carried cond)
    (hnamed : CarriesNamed scope (carried.map Prod.snd))
    (hadd : g.schema.addClause f? limit resolved = .ok f) :
    g.Finds p scope' (limit + 1) f (resolved.seated carried limit)
      fun a => cond a && g.satisfies a limit c := by
  have hfresh := hsteps.fresh_notMem h.sited
  have h := h.bind hsteps
  have hends : ∀ x ∈ c.namedEnds, x ∈ p.namedEnds := fun x hx =>
    List.mem_flatMap.2 ⟨c, hc, hx⟩
  subst hclause
  cases resolved with
  | vertex slot v =>
    cases hsteps.spec with
    | cons hv _ =>
      obtain ⟨hmem, hkind, -⟩ := hv
      obtain rfl := Except.ok.inj hadd
      exact (addVertex_finds h hsteady hmem hkind (hfresh v List.mem_cons_self)).congr fun a =>
        (Bool.and_true _).symm
  | edge clause src b dst =>
    obtain ⟨⟨hsrc, hsrckind, hsrcname⟩, ⟨hb, hkind, hname⟩, hdst, hdstkind, hdstname⟩ :=
      hsteps.edge_spec
    have hfound : ∀ v ∈ [src, b, dst], v.name = none → v ∉ carried.map Prod.snd := hfresh
    simp only [List.forall_mem_cons] at hfound
    obtain ⟨hsrcfresh, hbfresh, hdstfresh, -⟩ := hfound
    simp only [Schema.addClause] at hadd
    simp only [ResolvedClause.seated, ResolvedClause.clause, satisfies]
    cases hnegated : clause.negated with
    | true =>
      have hneg : (ResolvedClause.edge clause src b dst).clause.negated = true := hnegated
      rw [hneg] at hsteps
      rw [hnegated, if_pos rfl] at hadd
      -- a negated clause at the start has no plan
      cases f? with
      | none => cases hadd
      | some f₀ =>
        have h : g.Finds p scope' limit f₀ carried cond := h
        have hcarried := hsteps.carried_of_negated hnamed
        rw [Schema.addNegatedClause_eq h.carries limit hcarried] at hadd
        obtain rfl := Except.ok.inj hadd
        exact (addNegatedClause_finds h hsteady hcarried hsrckind hkind hdstkind hname hsrcname
          hdstname hends).succ
    | false =>
      rw [hnegated, if_neg Bool.false_ne_true] at hadd
      obtain rfl := Except.ok.inj hadd
      have hbindings : ∀ v ∈ [src, dst], v ∈ scope' ∧ v.kind = .vertex ∧
          (v.name = none → v ∉ carried.map Prod.snd) :=
        List.forall_mem_cons.2 ⟨⟨hsrc, hsrckind, hsrcfresh⟩,
          List.forall_mem_singleton.2 ⟨hdst, hdstkind, hdstfresh⟩⟩
      exact addEdgeClause_finds h hsteady hb hkind hbfresh hbindings hname hsrcname hdstname hends

/-! ## All clauses -/

theorem satisfiesAll_concat (done : List Clause) (c : Clause) (a : Assignment) :
    g.satisfiesAll (done ++ [c]) a = (g.satisfiesAll done a && g.satisfies a done.length c) := by
  rw [satisfiesAll, List.zipIdx_append, List.all_append, Nat.zero_add]
  exact congrArg _ (Bool.and_true _)

/-- Some clauses are added: the frontier finds the assignments that satisfy them, for the elements
that they ask for, and the names in scope are among these in order. -/
structure Reached (g : Graph) (p : Pattern) (done : List Clause) (scope : List Binding) (f? : Option Frontier)
    (carried : List (Site × Binding)) : Prop where
  finds : g.FindsSoFar p scope done.length f? carried (g.satisfiesAll done)
  named : CarriesNamed scope (carried.map Prod.snd)
  mem_sites : ∀ s, s ∈ carried.map Prod.fst ↔ s ∈ clauseSites done
  shown : shownSites scope = ((clauseSites done).filter Site.isNamed).eraseDups

namespace Reached

theorem start : g.Reached p [] [] none [] where
  finds := ⟨.nil, rfl, fun _ => rfl⟩
  named _ hb := absurd hb List.not_mem_nil
  mem_sites _ := Iff.rfl
  shown := rfl

/-- One more clause. -/
theorem addClause (h : g.Reached p done scope f? carried) (hsteady : g.SteadyKeys p)
    (hc : c ∈ p.clauses)
    (hclause : resolved.clause = c)
    (hsteps : BindSteps c.negated scope c.slots resolved.bindings scope')
    (hadd : g.schema.addClause f? done.length resolved = .ok f) :
    g.Reached p (done ++ [c]) scope' (some f) (resolved.seated carried done.length) where
  finds := by
    rw [List.length_append, List.length_singleton]
    exact (addClause_finds hsteady hc hclause hsteps h.finds h.named hadd).congr fun a =>
      (satisfiesAll_concat done c a).symm
  named := by
    rw [map_snd_seated hclause hsteps h.finds.sited]
    exact carriesNamed_carriedAfter hclause hsteps h.named
  mem_sites s := by
    rw [mem_sites_seated hclause hsteps h.finds.sited, h.mem_sites, clauseSites_concat,
      List.mem_append]
  shown := by
    rw [clauseSites_concat]
    exact hsteps.shownSites_clause h.shown done.length

/-- All other clauses, one after the other. -/
theorem addClauses (h : g.Reached p done scope f? carried) (hsteady : g.SteadyKeys p)
    (hclauses : ∀ c ∈ clauses, c ∈ p.clauses)
    (hok : Resolution.resolveClauses scope clauses = .ok (rest, scope'))
    (hadds : g.schema.addClauses f? done.length rest = .ok f'?) :
    ∃ carried', g.Reached p (done ++ clauses) scope' f'? carried' := by
  induction clauses generalizing done scope f? carried rest with
  | nil =>
    obtain ⟨rfl, rfl⟩ := Prod.mk.inj (Except.ok.inj hok)
    obtain rfl := Except.ok.inj hadds
    exact ⟨carried, (List.append_nil done).symm ▸ h⟩
  | cons c clauses ih =>
    obtain ⟨resolved, scope₁, rest, hresolved, hrest, rfl⟩ := resolveClauses_cons_eq_ok_iff.1 hok
    obtain ⟨hclause, hsteps⟩ := (resolveClause_eq_ok_iff h.finds.sited.isScope).1 hresolved
    obtain ⟨f, hadd, hadds⟩ := bind_eq_ok_iff.1 hadds
    obtain ⟨hc, hclauses⟩ := List.forall_mem_cons.1 hclauses
    have hnext := h.addClause hsteady hc hclause hsteps hadd
    rw [← List.singleton_append, ← List.append_assoc]
    refine ih hnext hclauses hrest ?_
    rw [List.length_append, List.length_singleton]
    exact hadds

end Reached

end Graph

end GraphMotif
