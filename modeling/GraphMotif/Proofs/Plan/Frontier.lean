import GraphMotif.Plan.Compile
import GraphMotif.Proofs.Plan.Check
import GraphMotif.Proofs.Resolution.Scope
import Mathlib.Data.List.Basic

/-!
# What a frontier carries

A frontier carries bindings of a scope: their columns are bound, its plan produces the columns of
their relations, and the plan passes its check. Every clause keeps this. A positive clause adds its
bindings, ends without a name left out; a negated clause adds none, and it is no error when its
named bindings are carried.
-/

namespace GraphMotif

/-- The columns of the relation of a binding under its tag. -/
def Schema.tagged (s : Schema) (b : Binding) : List String :=
  (s.columns b.kind).map (qualified b.column)

/-- One more binding, unless it is there. -/
def carry (bs : List Binding) (b : Binding) : List Binding := if b ∈ bs then bs else bs ++ [b]

theorem mem_carry {bs : List Binding} {b b' : Binding} : b' ∈ carry bs b ↔ b' ∈ bs ∨ b' = b := by
  rw [carry]
  split
  · next h => exact ⟨.inl, fun h' => h'.elim id fun heq => heq ▸ h⟩
  · rw [List.mem_append, List.mem_singleton]

/-- The named ends of an edge that are not there yet, none of them twice. -/
def newEnds (bs : List Binding) (src dst : Binding) : List Binding :=
  ([src, dst].filter fun v => v.name.isSome && !decide (v ∈ bs)).eraseDups

theorem mem_newEnds {bs : List Binding} {src dst v : Binding} :
    v ∈ newEnds bs src dst ↔ (v = src ∨ v = dst) ∧ v.name.isSome = true ∧ v ∉ bs := by
  rw [newEnds, List.mem_eraseDups, List.mem_filter]
  simp

/-- The columns of an edge that hold the identity of a vertex. -/
def endSides (src dst v : Binding) : List String :=
  [(src, srcColumn), (dst, dstColumn)].filterMap fun (w, side) => if w = v then some side else none

theorem mem_endSides {src dst v : Binding} {side : String} :
    side ∈ endSides src dst v ↔ side = srcColumn ∧ src = v ∨ side = dstColumn ∧ dst = v := by
  rw [endSides, List.mem_filterMap]
  simp only [List.mem_cons, List.not_mem_nil, or_false, Option.ite_none_right_eq_some,
    Option.some.injEq, or_and_right, exists_or, exists_eq_left]
  exact or_congr (and_comm.trans (and_congr_left' eq_comm)) (and_comm.trans (and_congr_left' eq_comm))

/-- The bindings that a frontier carries after a clause. -/
def ResolvedClause.carriedAfter (bs : List Binding) : ResolvedClause → List Binding
  | vertex _ v => carry bs v
  | edge clause src e dst =>
    if clause.negated then bs else carry bs e ++ newEnds (carry bs e) src dst

/-- A frontier carries bindings of a scope. -/
structure Frontier.Carries (s : Schema) (scope : List Binding) (f : Frontier)
    (bs : List Binding) : Prop where
  isScope : Scope scope
  subset : ∀ b ∈ bs, b ∈ scope
  bound : f.bound = bs.map (·.column)
  columns : f.plan.columns = bs.flatMap s.tagged
  check : f.plan.check = .ok ()

namespace Frontier.Carries

variable {s : Schema} {scope scope' bs : List Binding} {f : Frontier} {b v : Binding}
  {column side : String} {equalities : List Equality}

theorem mono (h : f.Carries s scope bs) (hscope : Scope scope') (hsub : ∀ b ∈ scope, b ∈ scope') :
    f.Carries s scope' bs :=
  { h with
    isScope := hscope
    subset := fun b hb => hsub b (h.subset b hb) }

theorem binds_iff (h : f.Carries s scope bs) (hb : b ∈ scope) : f.binds b = true ↔ b ∈ bs := by
  rw [binds, List.contains_iff_mem, h.bound, List.mem_map]
  constructor
  · rintro ⟨b', hb', heq⟩
    exact h.isScope.column_inj (h.subset b' hb') hb heq ▸ hb'
  · exact fun hmem => ⟨b, hmem, rfl⟩

theorem binds_eq (h : f.Carries s scope bs) (hb : b ∈ scope) : f.binds b = decide (b ∈ bs) := by
  rw [Bool.eq_iff_iff, h.binds_iff hb, decide_eq_true_iff]

theorem mem_columns (h : f.Carries s scope bs) (hb : b ∈ bs) (hcolumn : column ∈ s.columns b.kind) :
    qualified b.column column ∈ f.plan.columns := by
  rw [h.columns]
  exact List.mem_flatMap.2 ⟨b, hb, List.mem_map_of_mem hcolumn⟩

theorem mem_idColumn (h : f.Carries s scope bs) (hv : v ∈ bs) (hkind : v.kind = .vertex) :
    v.idColumn ∈ f.plan.columns :=
  h.mem_columns hv (hkind ▸ s.id_mem)

/-! ## Steps -/

/-- The scan of the relation of a binding. -/
theorem scan (hscope : Scope scope) (hb : b ∈ scope) :
    Frontier.Carries s scope { plan := s.scan b.kind b.column, bound := [b.column] } [b] where
  isScope := hscope
  subset b' hb' := List.mem_singleton.1 hb' ▸ hb
  bound := rfl
  columns := by
    rw [List.flatMap_singleton]
    rfl
  check := rfl

/-- A join with the scan of one more binding. -/
theorem extend (h : f.Carries s scope bs) (hb : b ∈ scope)
    (hequalities : Plan.Grounded equalities f.plan.columns (s.tagged b)) :
    (f.extend (.join f.plan (s.scan b.kind b.column) equalities) b).Carries s scope
      (bs ++ [b]) where
  isScope := h.isScope
  subset b' hb' := (List.mem_append.1 hb').elim (h.subset b') fun hb' =>
    List.mem_singleton.1 hb' ▸ hb
  bound := by
    rw [Frontier.extend, h.bound, List.map_append]
    rfl
  columns := by
    rw [Frontier.extend, Plan.columns, h.columns, List.flatMap_append, List.flatMap_singleton]
    rfl
  check := Plan.check_join.2 ⟨hequalities, h.check, rfl⟩

/-- An operator that keeps the columns. -/
theorem withPlan (h : f.Carries s scope bs) {plan : Plan} (hcolumns : plan.columns = f.plan.columns)
    (hcheck : plan.check = .ok ()) : (f.withPlan plan).Carries s scope bs :=
  { h with
    columns := hcolumns.trans h.columns
    check := hcheck }

/-! ## Positive clauses -/

theorem grounded_endEqualities (h : f.Carries s scope bs) (tag : String) {src dst : Binding}
    (hsrc : src ∈ scope) (hdst : dst ∈ scope) (hsrckind : src.kind = .vertex)
    (hdstkind : dst.kind = .vertex) :
    Plan.Grounded (Schema.endEqualities f tag src dst) f.plan.columns
      (s.edgeColumns.map (qualified tag)) := by
  intro e he
  obtain ⟨⟨v, side⟩, hmem, he⟩ := List.mem_filterMap.1 he
  have hv : v ∈ scope ∧ v.kind = .vertex ∧ side ∈ s.edgeColumns := by
    rcases List.mem_cons.1 hmem with heq | hmem
    · obtain ⟨rfl, rfl⟩ := Prod.mk.inj heq
      exact ⟨hsrc, hsrckind, s.src_mem⟩
    · obtain ⟨rfl, rfl⟩ := Prod.mk.inj (List.mem_singleton.1 hmem)
      exact ⟨hdst, hdstkind, s.dst_mem⟩
  obtain ⟨hscope, hkind, hside⟩ := hv
  simp only at he
  split at he
  · next hbinds =>
    obtain rfl := Option.some.inj he
    exact ⟨h.mem_idColumn ((h.binds_iff hscope).1 hbinds) hkind, List.mem_map_of_mem hside⟩
  · exact absurd he nofun

/-- The ends to be looked up are the new ones, each with its columns of the edge. -/
theorem pendingEnds_eq (h : f.Carries s scope bs) {src dst : Binding} (hsrc : src ∈ scope)
    (hdst : dst ∈ scope) :
    Schema.pendingEnds f src dst = (newEnds bs src dst).map fun v => (v, endSides src dst v) := by
  have hcolumn : src.column = dst.column ↔ src = dst :=
    ⟨h.isScope.column_inj hsrc hdst, fun heq => heq ▸ rfl⟩
  have hpending (v : Binding) (hv : v ∈ scope) :
      (v.name.isSome && !f.binds v) = (v.name.isSome && !decide (v ∈ bs)) := by
    rw [h.binds_eq hv]
  simp only [Schema.pendingEnds, hpending src hsrc, hpending dst hdst, hcolumn, newEnds]
  -- four cases: either end is new or not; two new ends may be one vertex
  generalize hp : (src.name.isSome && !decide (src ∈ bs)) = p
  generalize hq : (dst.name.isSome && !decide (dst ∈ bs)) = q
  by_cases heq : src = dst
  · subst heq
    obtain rfl : p = q := hp.symm.trans hq
    cases p <;> simp [hp, endSides, List.eraseDups_cons]
  · have hne : ¬dst = src := fun h' => heq h'.symm
    cases p <;> cases q <;> simp [hp, hq, heq, hne, endSides, List.eraseDups_cons]

/-- An end of an edge is looked up at columns of the edge. -/
theorem attachEnd (h : f.Carries s scope bs) {edge : Binding} (hedge : edge ∈ bs)
    (hkind : edge.kind = .edge) (hv : v ∈ scope) (hvkind : v.kind = .vertex) {sides : List String}
    (hsides : ∀ side ∈ sides, side ∈ s.edgeColumns) :
    (s.attachEnd edge f (v, sides)).Carries s scope (bs ++ [v]) := by
  have hgrounded : Plan.Grounded (sides.map fun side =>
      { left := qualified edge.column side, right := v.idColumn : Equality }) f.plan.columns
        (s.tagged v) := by
    intro e he
    obtain ⟨side, hside, rfl⟩ := List.mem_map.1 he
    refine ⟨h.mem_columns hedge ?_, List.mem_map_of_mem ?_⟩
    · rw [hkind]
      exact hsides side hside
    · rw [hvkind]
      exact s.id_mem
  have hextend := h.extend hv hgrounded
  rw [hvkind] at hextend
  exact hextend

theorem endSides_subset (s : Schema) (src dst v : Binding) :
    ∀ side ∈ endSides src dst v, side ∈ s.edgeColumns := by
  intro side hside
  rcases mem_endSides.1 hside with ⟨rfl, -⟩ | ⟨rfl, -⟩
  · exact s.src_mem
  · exact s.dst_mem

/-- New ends are looked up one after the other. -/
theorem attachEnds (h : f.Carries s scope bs) {edge src dst : Binding} (hedge : edge ∈ bs)
    (hkind : edge.kind = .edge) {ends : List Binding}
    (hends : ∀ v ∈ ends, v ∈ scope ∧ v.kind = .vertex) :
    ((ends.map fun v => (v, endSides src dst v)).foldl (s.attachEnd edge) f).Carries s scope
      (bs ++ ends) := by
  induction ends generalizing f bs with
  | nil => rwa [List.append_nil]
  | cons v ends ih =>
    obtain ⟨⟨hv, hvkind⟩, hends⟩ := List.forall_mem_cons.1 hends
    have hattach := h.attachEnd hedge hkind hv hvkind (endSides_subset s src dst v)
    have hrest := ih hattach (List.mem_append_left _ hedge) hends
    rwa [List.append_assoc, List.singleton_append] at hrest

end Frontier.Carries

/-- What is carried so far; without a frontier nothing is. -/
def Schema.CarriesSoFar (s : Schema) (scope : List Binding) (bs : List Binding) :
    Option Frontier → Prop
  | none => bs = []
  | some f => f.Carries s scope bs

namespace Schema

variable {s : Schema} {scope bs : List Binding} {f? : Option Frontier} {src edge dst v : Binding}

theorem addVertex_carries (h : s.CarriesSoFar scope bs f?) (hscope : Scope scope) (hv : v ∈ scope)
    (hkind : v.kind = .vertex) : (s.addVertex f? v).Carries s scope (carry bs v) := by
  cases f? with
  | none =>
    obtain rfl : bs = [] := h
    have hscan := Frontier.Carries.scan (s := s) hscope hv
    rw [hkind] at hscan
    exact hscan
  | some f =>
    have h : f.Carries s scope bs := h
    simp only [addVertex, carry, h.binds_iff hv]
    split
    · exact h
    · have hgrounded : Plan.Grounded [] f.plan.columns (s.tagged v) :=
        fun _ he => absurd he List.not_mem_nil
      have hextend := h.extend hv hgrounded
      rw [hkind] at hextend
      exact hextend

theorem addEdge_carries (h : s.CarriesSoFar scope bs f?) (hscope : Scope scope)
    (hsrc : src ∈ scope) (hedge : edge ∈ scope) (hdst : dst ∈ scope) (hsrckind : src.kind = .vertex)
    (hkind : edge.kind = .edge) (hdstkind : dst.kind = .vertex) :
    (s.addEdge f? src edge dst).Carries s scope (carry bs edge) := by
  cases f? with
  | none =>
    obtain rfl : bs = [] := h
    have hscan := Frontier.Carries.scan (s := s) hscope hedge
    rw [hkind] at hscan
    exact hscan
  | some f =>
    have h : f.Carries s scope bs := h
    have hgrounded := h.grounded_endEqualities edge.column hsrc hdst hsrckind hdstkind
    simp only [addEdge, carry, h.binds_iff hedge]
    split
    · next hmem =>
      split
      · exact h
      · refine h.withPlan rfl (Plan.check_filter.2 ⟨fun e he => ?_, h.check⟩)
        obtain ⟨hleft, hright⟩ := hgrounded e he
        obtain ⟨column, hcolumn, heq⟩ := List.mem_map.1 hright
        exact ⟨hleft, heq ▸ h.mem_columns hmem (hkind ▸ hcolumn)⟩
    · have htagged : s.tagged edge = s.edgeColumns.map (qualified edge.column) := by
        rw [tagged, hkind]
        rfl
      have hextend := h.extend hedge (htagged ▸ hgrounded)
      rw [hkind] at hextend
      exact hextend

/-- A positive edge clause adds its edge and the ends that it names first. -/
theorem addEdgeClause_carries (h : s.CarriesSoFar scope bs f?) (hscope : Scope scope)
    (hsrc : src ∈ scope) (hedge : edge ∈ scope) (hdst : dst ∈ scope) (hsrckind : src.kind = .vertex)
    (hkind : edge.kind = .edge) (hdstkind : dst.kind = .vertex) :
    (s.addEdgeClause f? src edge dst).Carries s scope
      (carry bs edge ++ newEnds (carry bs edge) src dst) := by
  have hcarries := addEdge_carries h hscope hsrc hedge hdst hsrckind hkind hdstkind
  rw [addEdgeClause, hcarries.pendingEnds_eq hsrc hdst]
  refine hcarries.attachEnds (mem_carry.2 (.inr rfl)) hkind fun v hv => ?_
  rcases (mem_newEnds.1 hv).1 with rfl | rfl
  · exact ⟨hsrc, hsrckind⟩
  · exact ⟨hdst, hdstkind⟩

/-! ## Negated clauses -/

/-- The demand on a named end of a negated edge scanned under a tag. -/
def endDemand (tag : String) (v : Binding) (side : String) : List Equality :=
  if v.name.isSome then [{ left := v.idColumn, right := qualified tag side }] else []

/-- The demand on a named negated edge scanned under a tag. -/
def edgeDemand (s : Schema) (tag : String) (edge : Binding) : List Equality :=
  if edge.name.isSome then s.edgeColumns.map fun column =>
    { left := qualified edge.column column, right := qualified tag column, nullSafe := true }
  else []

/-- What a negated clause demands of an edge scanned under a tag. -/
def negatedDemands (s : Schema) (tag : String) (src edge dst : Binding) : List Equality :=
  endDemand tag src srcColumn ++ endDemand tag dst dstColumn ++ s.edgeDemand tag edge

/-- The tag of the edges that a negated clause forbids. -/
def negatedTag (index : Nat) : String := "n" ++ toString index

variable {f : Frontier} {clause : EdgeClause}

theorem negatedEnd_eq (h : f.Carries s scope bs) (tag side : String)
    (hv : v.name.isSome = true → v ∈ bs) :
    negatedEnd f clause tag v side = .ok (endDemand tag v side) := by
  rw [negatedEnd, endDemand]
  cases hname : v.name with
  | none => rfl
  | some name =>
    have hmem := hv (hname ▸ rfl)
    rw [(h.binds_iff (h.subset v hmem)).2 hmem]
    rfl

theorem negatedEdge_eq (h : f.Carries s scope bs) (tag : String)
    (hedge : edge.name.isSome = true → edge ∈ bs) :
    s.negatedEdge f clause tag edge = .ok (s.edgeDemand tag edge) := by
  rw [negatedEdge, edgeDemand]
  cases hname : edge.name with
  | none => rfl
  | some name =>
    have hmem := hedge (hname ▸ rfl)
    rw [(h.binds_iff (h.subset edge hmem)).2 hmem]
    rfl

/-- A negated clause whose named bindings are carried is an anti-join. -/
theorem addNegatedClause_eq (h : f.Carries s scope bs) (index : Nat)
    (hcarried : ∀ b ∈ [src, edge, dst], b.name.isSome = true → b ∈ bs) :
    s.addNegatedClause (some f) index clause src edge dst =
      .ok (f.withPlan (.antiJoin f.plan (s.scan .edge (negatedTag index))
        (s.negatedDemands (negatedTag index) src edge dst))) := by
  simp only [List.forall_mem_cons] at hcarried
  obtain ⟨hsrc, hedge, hdst, -⟩ := hcarried
  simp only [addNegatedClause, negatedEnd_eq h _ _ hsrc, negatedEnd_eq h _ _ hdst,
    negatedEdge_eq h _ hedge]
  rfl

theorem grounded_negatedDemands (h : f.Carries s scope bs) (tag : String)
    (hcarried : ∀ b ∈ [src, edge, dst], b.name.isSome = true → b ∈ bs)
    (hsrckind : src.kind = .vertex) (hkind : edge.kind = .edge) (hdstkind : dst.kind = .vertex) :
    Plan.Grounded (s.negatedDemands tag src edge dst) f.plan.columns
      (s.edgeColumns.map (qualified tag)) := by
  simp only [List.forall_mem_cons] at hcarried
  obtain ⟨hsrc, hedge, hdst, -⟩ := hcarried
  have hend {v : Binding} {side : String} (hv : v.name.isSome = true → v ∈ bs)
      (hvkind : v.kind = .vertex) (hside : side ∈ s.edgeColumns) :
      ∀ e ∈ endDemand tag v side,
        e.left ∈ f.plan.columns ∧ e.right ∈ s.edgeColumns.map (qualified tag) := by
    intro e he
    rw [endDemand] at he
    split at he
    · next hname =>
      obtain rfl := List.mem_singleton.1 he
      exact ⟨h.mem_idColumn (hv hname) hvkind, List.mem_map_of_mem hside⟩
    · exact absurd he List.not_mem_nil
  intro e he
  rw [negatedDemands, List.mem_append, List.mem_append] at he
  rcases he with (he | he) | he
  · exact hend hsrc hsrckind s.src_mem e he
  · exact hend hdst hdstkind s.dst_mem e he
  · rw [edgeDemand] at he
    split at he
    · next hname =>
      obtain ⟨column, hcolumn, rfl⟩ := List.mem_map.1 he
      exact ⟨h.mem_columns (hedge hname) (hkind ▸ hcolumn), List.mem_map_of_mem hcolumn⟩
    · exact absurd he List.not_mem_nil

/-- A negated clause carries what was carried. -/
theorem addNegatedClause_carries (h : f.Carries s scope bs) (index : Nat)
    (hcarried : ∀ b ∈ [src, edge, dst], b.name.isSome = true → b ∈ bs)
    (hsrckind : src.kind = .vertex) (hkind : edge.kind = .edge) (hdstkind : dst.kind = .vertex) :
    (f.withPlan (.antiJoin f.plan (s.scan .edge (negatedTag index))
      (s.negatedDemands (negatedTag index) src edge dst))).Carries s scope bs :=
  h.withPlan rfl (Plan.check_antiJoin.2
    ⟨grounded_negatedDemands h _ hcarried hsrckind hkind hdstkind, h.check, rfl⟩)

end Schema

end GraphMotif
