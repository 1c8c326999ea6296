import GraphMotif.Proofs.Plan.Compile
import GraphMotif.Proofs.Resolution.Renaming

/-!
# Plans under other names

A plan refers to bindings by their columns. A name decides two things only: whether an end of an
edge is looked up, and under which name a binding is put out. So under other names a pattern has the
same plan, but for the names of its outputs and its text.
-/

namespace GraphMotif

/-- An end of an edge keeps having a name or having none, and so does a negated edge. -/
def Clause.KeepsEnds (φ : Slot → Slot) : Clause → Prop
  | .vertex _ => True
  | .edge e => (φ e.src).isSome = e.src.isSome ∧ (φ e.dst).isSome = e.dst.isSome ∧
      (e.negated = true → (φ e.edge).isSome = e.edge.isSome)

namespace Schema

variable {s : Schema} {φ : Slot → Slot} {f : Frontier} {f? f'? : Option Frontier}
  {src edge dst v : Binding} {clause clause' : EdgeClause} {tag side : String}
  {resolved : ResolvedClause} {index : Nat}

/-! ## One clause -/

theorem pendingEnds_mapName (f : Frontier) (hsrc : (φ src.name).isSome = src.name.isSome)
    (hdst : (φ dst.name).isSome = dst.name.isSome) :
    pendingEnds f (src.mapName φ) (dst.mapName φ) =
      (pendingEnds f src dst).map fun (v, sides) => (v.mapName φ, sides) := by
  have hpending {v : Binding} (hv : (φ v.name).isSome = v.name.isSome) :
      ((v.mapName φ).name.isSome && !f.binds (v.mapName φ)) = (v.name.isSome && !f.binds v) :=
    congrArg (· && !f.binds v) hv
  simp only [pendingEnds, hpending hsrc, hpending hdst]
  cases src.name.isSome && !f.binds src <;> cases dst.name.isSome && !f.binds dst
  · rfl
  · rfl
  · rfl
  · show (if src.column = dst.column then _ else _) = List.map _ (if src.column = dst.column then _ else _)
    split <;> rfl

theorem addEdgeClause_mapName (f? : Option Frontier) (edge : Binding)
    (hsrc : (φ src.name).isSome = src.name.isSome) (hdst : (φ dst.name).isSome = dst.name.isSome) :
    s.addEdgeClause f? (src.mapName φ) (edge.mapName φ) (dst.mapName φ) =
      s.addEdgeClause f? src edge dst := by
  have hedge : s.addEdge f? (src.mapName φ) (edge.mapName φ) (dst.mapName φ) =
      s.addEdge f? src edge dst := by
    cases f? <;> rfl
  rw [addEdgeClause, addEdgeClause, hedge]
  simp only [pendingEnds_mapName _ hsrc hdst, List.foldl_map]
  rfl

/-- A demand that is met does not depend on what would have been said of it otherwise. -/
theorem demand_eq_ok {nameless bound : Bool} {demanded equalities : List Equality}
    {e e' : CompileError}
    (h : (if nameless then .ok [] else if bound then .ok demanded else .error e) =
      (.ok equalities : Except CompileError (List Equality))) :
    (if nameless then .ok [] else if bound then .ok demanded else .error e') =
      (.ok equalities : Except CompileError (List Equality)) := by
  cases nameless with
  | true => exact h
  | false =>
    cases bound with
    | true => exact h
    | false => exact absurd h nofun

theorem isNone_mapName (h : (φ v.name).isSome = v.name.isSome) :
    (v.mapName φ).name.isNone = v.name.isNone := by
  show (φ v.name).isNone = v.name.isNone
  rw [← Option.not_isSome, h, Option.not_isSome]

theorem negatedEnd_mapName {equalities : List Equality} (hv : (φ v.name).isSome = v.name.isSome)
    (h : negatedEnd f clause tag v side = .ok equalities) :
    negatedEnd f clause' tag (v.mapName φ) side = .ok equalities := by
  rw [negatedEnd, isNone_mapName hv]
  exact demand_eq_ok h

theorem negatedEdge_mapName {equalities : List Equality}
    (hedge : (φ edge.name).isSome = edge.name.isSome)
    (h : s.negatedEdge f clause tag edge = .ok equalities) :
    s.negatedEdge f clause' tag (edge.mapName φ) = .ok equalities := by
  rw [negatedEdge, isNone_mapName hedge]
  exact demand_eq_ok h

/-- A clause adds the same to a frontier under other names. -/
theorem addClause_mapSlots
    (hnames : resolved.bindings.map (·.name) = resolved.clause.slots.map Prod.snd)
    (hkeeps : resolved.clause.KeepsEnds φ) (h : s.addClause f? index resolved = .ok f) :
    s.addClause f? index (resolved.mapSlots φ) = .ok f := by
  cases resolved with
  | vertex name v =>
    rw [← h]
    cases f? <;> rfl
  | edge clause src edge dst =>
    obtain ⟨hsrcname, hnames⟩ := List.cons.inj hnames
    obtain ⟨hedgename, hnames⟩ := List.cons.inj hnames
    obtain ⟨hsrc, hdst, hedge⟩ := hkeeps
    rw [← (show src.name = clause.src from hsrcname)] at hsrc
    rw [← (show dst.name = clause.dst from (List.cons.inj hnames).1)] at hdst
    rw [← (show edge.name = clause.edge from hedgename)] at hedge
    show (if clause.negated then _ else _) = _
    rw [addClause] at h
    cases hnegated : clause.negated with
    | false =>
      rw [hnegated] at h
      rw [if_neg Bool.false_ne_true, addEdgeClause_mapName f? edge hsrc hdst]
      exact h
    | true =>
      rw [hnegated, if_pos rfl] at h
      rw [if_pos rfl]
      cases f? with
      | none => cases h
      | some f₀ =>
        rw [addNegatedClause] at h ⊢
        obtain ⟨atSrc, hatSrc, h⟩ := bind_eq_ok_iff.1 h
        obtain ⟨atDst, hatDst, h⟩ := bind_eq_ok_iff.1 h
        obtain ⟨sameEdge, hsameEdge, h⟩ := bind_eq_ok_iff.1 h
        exact bind_eq_ok_iff.2 ⟨atSrc, negatedEnd_mapName hsrc hatSrc, bind_eq_ok_iff.2
          ⟨atDst, negatedEnd_mapName hdst hatDst, bind_eq_ok_iff.2
            ⟨sameEdge, negatedEdge_mapName (hedge hnegated) hsameEdge, h⟩⟩⟩

/-! ## Patterns -/

theorem addClauses_mapSlots {clauses : List ResolvedClause}
    (hnames : ∀ c ∈ clauses, c.bindings.map (·.name) = c.clause.slots.map Prod.snd)
    (hkeeps : ∀ c ∈ clauses, c.clause.KeepsEnds φ) (h : s.addClauses f? index clauses = .ok f'?) :
    s.addClauses f? index (clauses.map (ResolvedClause.mapSlots φ)) = .ok f'? := by
  induction clauses generalizing f? index with
  | nil => exact h
  | cons resolved clauses ih =>
    obtain ⟨hname, hnames⟩ := List.forall_mem_cons.1 hnames
    obtain ⟨hkeep, hkeeps⟩ := List.forall_mem_cons.1 hkeeps
    obtain ⟨f, hadd, hadds⟩ := bind_eq_ok_iff.1 h
    exact bind_eq_ok_iff.2 ⟨f, addClause_mapSlots hname hkeep hadd, ih hnames hkeeps hadds⟩

/-- The outputs of a plan are the bundles of bindings that its frontier carries. -/
theorem outputs_eq_map {bs : List Binding} {outputs : List Output}
    (h : bs.mapM (s.output f) = .ok outputs) :
    outputs = bs.map s.bundle ∧ ∀ b ∈ bs, f.binds b = true := by
  induction bs generalizing outputs with
  | nil => exact ⟨(Except.ok.inj h).symm, fun b hb => absurd hb List.not_mem_nil⟩
  | cons b bs ih =>
    rw [List.mapM_cons] at h
    obtain ⟨first, hfirst, h⟩ := bind_eq_ok_iff.1 h
    obtain ⟨rest, hrest, h⟩ := bind_eq_ok_iff.1 h
    obtain ⟨rfl, hbinds⟩ := ih hrest
    rw [output] at hfirst
    split at hfirst
    · next hb =>
      obtain rfl := Except.ok.inj hfirst
      exact ⟨(Except.ok.inj h).symm, List.forall_mem_cons.2 ⟨hb, hbinds⟩⟩
    · cases hfirst

/-- A resolved pattern has the same plan under other names, but for the names of the outputs. -/
theorem compile_mapSlots {p : Pattern} {r : Resolution} {plan : MatchPlan} (hr : p.resolve = .ok r)
    (hplan : s.compile r = .ok plan) (hkeeps : ∀ c ∈ p.clauses, c.KeepsEnds φ) :
    plan.outputs = r.outputs.map s.bundle ∧
      s.compile (r.mapSlots φ) =
        .ok { child := plan.child, outputs := (r.mapSlots φ).outputs.map s.bundle,
              pattern := (p.mapSlots φ).toText } := by
  obtain ⟨clauses, bindings, hok, -, rfl⟩ := Pattern.resolve_eq_ok_iff.1 hr
  have hempty' := p.isEmpty_mapSlots φ
  cases hempty : p.isEmpty with
  | true =>
    obtain ⟨⟨⟩⟩ := p
    · obtain ⟨rfl, rfl⟩ := Prod.mk.inj (Except.ok.inj hok)
      obtain rfl := Except.ok.inj hplan
      exact ⟨rfl, rfl⟩
    · exact absurd hempty nofun
  | false =>
    obtain ⟨f, hadds, hchild, houtputs, hcheck⟩ := exists_frontier_of_compile hempty hplan
    obtain ⟨houtputs, hbinds⟩ := outputs_eq_map houtputs
    have hkeeps : ∀ c ∈ clauses, c.clause.KeepsEnds φ := fun c hc =>
      hkeeps _ (map_clause_of_resolveClauses .nil hok ▸ List.mem_map_of_mem hc)
    refine ⟨houtputs, ?_⟩
    rw [hchild]
    refine compile_of_addClauses (hempty'.trans hempty)
      (addClauses_mapSlots (names_of_resolveClauses .nil hok) hkeeps hadds)
      (mapM_eq_ok_map fun b hb => ?_) ?_
    · obtain ⟨b, hb', rfl⟩ := List.mem_map.1 (List.mem_filter.1 hb).1
      rw [output, show f.binds (b.mapName φ) = f.binds b from rfl, hbinds b hb']
      rfl
    · -- the outputs that are left refer to columns of outputs that were there
      rw [MatchPlan.root, hchild, Plan.check_project] at hcheck
      refine Plan.check_project.2 ⟨fun o ho column hcolumn => ?_, hcheck.2⟩
      obtain ⟨b, hb, rfl⟩ := List.mem_map.1 ho
      obtain ⟨b, hb', rfl⟩ := List.mem_map.1 (List.mem_filter.1 hb).1
      exact hcheck.1 (s.bundle b) (houtputs ▸ List.mem_map_of_mem hb') column hcolumn

theorem compilePattern_eq_ok_iff {p : Pattern} {plan : MatchPlan} :
    s.compilePattern p = .ok plan ↔ ∃ r, p.resolve = .ok r ∧ s.compile r = .ok plan := by
  simp only [compilePattern, bind_eq_ok_iff, mapError_eq_ok_iff]

/-- A pattern has the same plan under other names, but for the names of the outputs. -/
theorem compilePattern_mapSlots {p : Pattern} {r : Resolution} {plan : MatchPlan}
    (hr : p.resolve = .ok r) (hplan : s.compilePattern p = .ok plan) (hfaithful : Faithful φ p.slots)
    (hkeeps : ∀ c ∈ p.clauses, c.KeepsEnds φ) :
    plan.outputs = r.outputs.map s.bundle ∧
      s.compilePattern (p.mapSlots φ) =
        .ok { child := plan.child, outputs := (r.mapSlots φ).outputs.map s.bundle,
              pattern := (p.mapSlots φ).toText } := by
  obtain ⟨r', hr', hplan⟩ := compilePattern_eq_ok_iff.1 hplan
  obtain rfl := Except.ok.inj (hr.symm.trans hr')
  obtain ⟨houtputs, hcompile⟩ := compile_mapSlots hr hplan hkeeps
  exact ⟨houtputs, compilePattern_eq_ok_iff.2 ⟨_, Pattern.resolve_mapSlots hr hfaithful, hcompile⟩⟩

end Schema

/-! ## Injective renamings -/

/-- The output under another name. -/
def Output.rename (f : String → String) (o : Output) : Output := { o with name := f o.name }

/-- The plan of a pattern `p` that is another one under other names: the same operators, for outputs
under these names. -/
def MatchPlan.rename (f : String → String) (p : Pattern) (plan : MatchPlan) : MatchPlan where
  child := plan.child
  outputs := plan.outputs.map (Output.rename f)
  pattern := p.toText

namespace Schema

variable {p : Pattern} {f : String → String}

/-- A pattern compiles under other names exactly if it compiles, to the same plan but for the names
of the outputs and the text. -/
theorem compilePattern_rename (s : Schema) (h : p.InjectsNames f) :
    (s.compilePattern (p.rename f)).toOption =
      (s.compilePattern p).toOption.map (MatchPlan.rename f (p.rename f)) := by
  refine Pattern.InjectsNames.toOption_eq s.compilePattern
    (fun p f => MatchPlan.rename f (p.rename f)) (fun {p f} h {plan} hplan => ?_) h
  obtain ⟨r, hr, -⟩ := compilePattern_eq_ok_iff.1 hplan
  have hkeeps : ∀ c ∈ p.clauses, c.KeepsEnds (Option.map f) := by
    intro c _
    cases c with
    | vertex => trivial
    | edge e => exact ⟨Option.isSome_map, Option.isSome_map, fun _ => Option.isSome_map⟩
  obtain ⟨houtputs, hcompile⟩ := compilePattern_mapSlots hr hplan h.faithful hkeeps
  refine hcompile.trans (congrArg Except.ok ?_)
  rw [Resolution.mapSlots_map f hr, MatchPlan.rename, houtputs]
  refine congrArg (MatchPlan.mk plan.child · _) ?_
  rw [Resolution.rename, List.map_map, List.map_map]
  refine List.map_congr_left fun b hb => ?_
  obtain ⟨name, hname⟩ := Option.isSome_iff_exists.1 (Pattern.visible_of_mem_outputs hr b hb)
  have houtput : (b.rename f).outputName = f b.outputName := by
    rw [Binding.outputName, Binding.outputName, Binding.rename, hname]
    rfl
  exact congrArg (Output.mk · _ _) houtput

end Schema

end GraphMotif
