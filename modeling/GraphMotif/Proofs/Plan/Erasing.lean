import GraphMotif.Proofs.EraseDups
import GraphMotif.Proofs.Plan.Links
import GraphMotif.Proofs.Plan.Renaming

/-!
# Plans without a name

A name that occurs once in a pattern may be erased. Where it is the name of an end of a positive
edge clause, its vertex is no longer looked up: the outline of the pattern loses one join and is
otherwise the same. Where it is the name of a vertex clause or of an edge, nothing of the plan
changes but the outputs.
-/

namespace GraphMotif

/-- A slot, left empty if a name is written there. -/
def eraseName (x : String) (s : Slot) : Slot := if s = some x then none else s

/-- The pattern with a name erased. -/
def Pattern.erase (p : Pattern) (x : String) : Pattern := p.mapSlots (eraseName x)

/-- A name of a pattern is that of a vertex clause or of the edge of a positive clause. -/
def Pattern.NamesElement (p : Pattern) (x : String) : Prop :=
  .vertex (some x) ∈ p.clauses ∨ ∃ e, .edge e ∈ p.clauses ∧ e.negated = false ∧ e.edge = some x

variable {x : String} {s : Slot} {slots : List Slot} {b v : Binding} {c : ResolvedClause}
  {φ : Slot → Slot}

theorem eraseName_self (x : String) : eraseName x (some x) = none := if_pos rfl

theorem eraseName_eq_self (h : s ≠ some x) : eraseName x s = s := if_neg h

theorem eraseName_eq_some_iff {name : String} (hne : name ≠ x) :
    eraseName x s = some name ↔ s = some name := by
  by_cases hs : s = some x
  · rw [hs, eraseName_self]
    exact iff_of_false nofun fun heq => hne (Option.some.inj heq).symm
  · rw [eraseName_eq_self hs]

theorem Binding.mapName_eq_self (h : φ b.name = b.name) : b.mapName φ = b :=
  congrArg (Binding.mk b.kind b.column · b.rank) h

/-- The bindings that are shown are those that were, but for that of the name. -/
theorem filter_visible_map_eraseName (bs : List Binding) :
    (bs.map (Binding.mapName (eraseName x))).filter Binding.visible =
      (bs.filter Binding.visible).filter fun b => b.name ≠ some x := by
  have hvisible (b : Binding) :
      (b.mapName (eraseName x)).visible = (decide (b.name ≠ some x) && b.visible) := by
    show (eraseName x b.name).isSome = (decide (b.name ≠ some x) && b.name.isSome)
    by_cases hname : b.name = some x
    · rw [hname, eraseName_self]
      simp
    · rw [eraseName_eq_self hname, decide_eq_true hname, Bool.true_and]
  rw [List.filter_map, List.filter_filter, Function.comp_def, funext hvisible]
  refine (List.map_congr_left fun b hb => Binding.mapName_eq_self (eraseName_eq_self ?_)).trans
    (List.map_id _)
  exact of_decide_eq_true (Bool.and_eq_true_iff.1 (List.mem_filter.1 hb).2).1

theorem find?_map_eraseName {name : String} (hne : name ≠ x) (bs : List Binding) :
    Binding.find? (bs.map (Binding.mapName (eraseName x))) name =
      (Binding.find? bs name).map (Binding.mapName (eraseName x)) := by
  rw [Binding.find?, List.find?_map, Binding.find?]
  congr 2
  exact funext fun b => decide_eq_decide.2 (eraseName_eq_some_iff hne)

/-- A name that occurs once can be erased. -/
theorem faithful_eraseName (h : slots.count (some x) ≤ 1) : Faithful (eraseName x) slots where
  map_none := if_neg nofun
  inj s _ s' _ heq hne := by
    have hkept {s : Slot} (hne : eraseName x s ≠ none) : eraseName x s = s :=
      eraseName_eq_self fun hs => hne (hs ▸ eraseName_self x)
    rw [← hkept hne, heq, hkept (heq ▸ hne)]
  once := by
    induction slots with
    | nil => exact .nil
    | cons s slots ih =>
      refine .cons (fun s' hs' heq hne => ?_) (ih (List.count_le_count_cons.trans h))
      by_cases hs : s = some x
      · rw [hs, List.count_cons_self] at h
        have hmem : some x ∈ slots := hs ▸ heq ▸ hs'
        have hpos := List.count_pos_iff.2 hmem
        omega
      · rwa [eraseName_eq_self hs]

/-- Of items whose slots have a name once, the one with the name stands among others without it. -/
theorem exists_around {α : Type} {f : α → List Slot} {ys : List α} {y : α}
    (honce : (ys.flatMap f).count (some x) = 1) (hy : y ∈ ys) (hx : some x ∈ f y) :
    (f y).count (some x) = 1 ∧
      ∃ before after, ys = before ++ y :: after ∧ ∀ z ∈ before ++ after, some x ∉ f z := by
  obtain ⟨before, after, rfl⟩ := List.append_of_mem hy
  have hpos := List.count_pos_iff.2 hx
  rw [List.flatMap_append, List.flatMap_cons, List.count_append, List.count_append] at honce
  refine ⟨by omega, before, after, rfl, fun z hz hz' => ?_⟩
  have hpos' : 0 < ((before ++ after).flatMap f).count (some x) :=
    List.count_pos_iff.2 (List.mem_flatMap.2 ⟨z, hz, hz'⟩)
  rw [List.flatMap_append, List.count_append] at hpos'
  omega

namespace ResolvedClause

theorem Scans.mem (h : c.Scans b) : b ∈ c.bindings := by
  cases c with
  | vertex slot v => exact List.mem_singleton.2 h
  | edge clause src e dst =>
    simp only [bindings, List.mem_cons, List.not_mem_nil, or_false]
    obtain ⟨-, rfl | ⟨-, rfl | rfl⟩⟩ := h
    · exact .inr (.inl rfl)
    · exact .inl rfl
    · exact .inr (.inr rfl)

/-- A clause with slots that stay. -/
theorem mapSlots_eq_self (hnames : c.bindings.map (·.name) = c.clause.slots.map Prod.snd)
    (h : ∀ s ∈ c.clause.slots.map Prod.snd, φ s = s) : c.mapSlots φ = c := by
  have hbinding : ∀ b ∈ c.bindings, b.mapName φ = b := fun b hb =>
    Binding.mapName_eq_self (h _ (hnames ▸ List.mem_map_of_mem hb))
  have hclause := Clause.mapSlots_eq_self h
  cases c with
  | vertex slot v =>
    rw [mapSlots, hbinding v List.mem_cons_self, Clause.vertex.inj hclause]
  | edge clause src e dst =>
    simp only [bindings, List.forall_mem_cons] at hbinding
    obtain ⟨hsrc, he, hdst, -⟩ := hbinding
    rw [mapSlots, hsrc, he, hdst, Clause.edge.inj hclause]

end ResolvedClause

namespace Outline

/-- An outline is another one without a join that looks up the vertex at an end of an edge. -/
inductive Omits (v edge : Binding) (side : String) : Outline → Outline → Prop
  | lookup {o : Outline} (hedge : edge ∈ o.bindings) :
      Omits v edge side o (join o v [edge.leadsTo v side])
  | join {o' o : Outline} (b : Binding) (equalities : List Equality) (h : Omits v edge side o' o) :
      Omits v edge side (join o' b equalities) (join o b equalities)
  | filter {o' o : Outline} (equalities : List Equality) (h : Omits v edge side o' o) :
      Omits v edge side (filter o' equalities) (filter o equalities)
  | antiJoin {o' o : Outline} (tag : String) (ends : List Equality) (b : Binding)
      (h : Omits v edge side o' o) :
      Omits v edge side (antiJoin o' tag ends b) (antiJoin o tag ends b)

variable {o o' : Outline} {o? : Option Outline} {src edge dst src' edge' dst' : Binding}
  {side tag : String} {index : Nat} {bs bs' ends : List Binding}

theorem ends_subset : [src, dst] ⊆ [src, edge, dst] :=
  List.Sublist.subset (.cons_cons src (.cons edge (.refl [dst])))

theorem boundEnds_congr (h : ∀ w ∈ [src, dst], w ∈ bs ↔ w ∈ bs') :
    boundEnds bs tag src dst = boundEnds bs' tag src dst := by
  have h := List.forall_mem_cons.1 h
  refine List.filterMap_congr fun x hx => ?_
  rcases List.mem_cons.1 hx with rfl | hx
  · simp only [h.1]
  · obtain rfl := List.mem_singleton.1 hx
    simp only [List.forall_mem_singleton.1 h.2]

theorem newEnds_congr (h : ∀ w ∈ [src, dst], w ∈ bs ↔ w ∈ bs') :
    newEnds bs src dst = newEnds bs' src dst :=
  congrArg List.eraseDups (List.filter_congr fun w hw => by simp only [h w hw])

theorem attachEnds_congr (o : Outline)
    (h : ∀ w ∈ ends, endSides src' dst' w = endSides src dst w) :
    ends.foldl (attachEnd src' edge dst') o = ends.foldl (attachEnd src edge dst) o :=
  List.foldl_ext _ _ _ fun o w hw => by rw [attachEnd, attachEnd, h w hw]

namespace Omits

theorem edge_mem (h : Omits v edge side o' o) : edge ∈ o'.bindings := by
  induction h with
  | lookup hedge => exact hedge
  | join _ _ _ ih => exact List.mem_append_left _ ih
  | filter _ _ ih => exact ih
  | antiJoin _ _ _ _ ih => exact ih

theorem subset (h : Omits v edge side o' o) : ∀ b ∈ o'.bindings, b ∈ o.bindings := by
  induction h with
  | lookup => exact fun _ hb => List.mem_append_left _ hb
  | join b' _ _ ih => exact fun b hb => List.mem_append.2 ((List.mem_append.1 hb).imp_left (ih b))
  | filter _ _ ih => exact ih
  | antiJoin _ _ _ _ ih => exact ih

/-- Only the binding that is looked up is missing. -/
theorem mem_iff (h : Omits v edge side o' o) (hne : b ≠ v) : b ∈ o.bindings ↔ b ∈ o'.bindings := by
  induction h with
  | lookup => simp only [bindings, List.mem_append, List.mem_singleton, hne, or_false]
  | join b' _ _ ih => simp only [bindings, List.mem_append, ih]
  | filter _ _ ih => exact ih
  | antiJoin _ _ _ _ ih => exact ih

theorem attachEnds (h : Omits v edge side o' o) (ends : List Binding) :
    Omits v edge side (ends.foldl (attachEnd src edge' dst) o')
      (ends.foldl (attachEnd src edge' dst) o) := by
  induction ends generalizing o o' with
  | nil => exact h
  | cons w ends ih => exact ih (h.join w _)

theorem addEdge (h : Omits v edge side o' o) (hv : v ∉ [src, edge', dst]) :
    Omits v edge side (addEdge (some o') src edge' dst) (addEdge (some o) src edge' dst) := by
  have hsame {w : Binding} (hw : w ∈ [src, edge', dst]) : w ∈ o.bindings ↔ w ∈ o'.bindings :=
    h.mem_iff fun heq => hv (heq ▸ hw)
  have hends : boundEnds o.bindings edge'.column src dst =
      boundEnds o'.bindings edge'.column src dst :=
    boundEnds_congr fun w hw => hsame (ends_subset hw)
  simp only [Outline.addEdge, hsame (List.mem_cons_of_mem _ List.mem_cons_self), hends]
  split
  · split
    · exact h
    · exact h.filter _
  · exact h.join _ _

/-- A clause without the binding that is looked up does the same to both outlines. -/
theorem addClause (h : Omits v edge side o' o) (hv : v ∉ c.bindings) :
    ∃ o₁' o₁, addClause (some o') index c = some o₁' ∧ addClause (some o) index c = some o₁ ∧
      Omits v edge side o₁' o₁ := by
  cases c with
  | vertex slot w =>
    refine ⟨_, _, rfl, rfl, ?_⟩
    have hw : w ≠ v := fun heq => hv (heq ▸ List.mem_cons_self)
    simp only [addVertex, h.mem_iff hw]
    split
    · exact h
    · exact h.join _ _
  | edge clause src edge' dst =>
    rw [Outline.addClause, Outline.addClause]
    split
    · exact ⟨_, _, rfl, rfl, h.antiJoin _ _ _⟩
    · refine ⟨_, _, rfl, rfl, ?_⟩
      have hadd := h.addEdge hv
      have hends : newEnds (Outline.addEdge (some o) src edge' dst).bindings src dst =
          newEnds (Outline.addEdge (some o') src edge' dst).bindings src dst :=
        newEnds_congr fun w hw => hadd.mem_iff fun heq => hv (heq ▸ ends_subset hw)
      simp only [addEdgeClause, hends]
      exact hadd.attachEnds _

theorem addClauses {clauses : List ResolvedClause} (h : Omits v edge side o' o)
    (hv : ∀ c ∈ clauses, v ∉ c.bindings) :
    ∃ o₁' o₁, addClauses (some o') index clauses = some o₁' ∧
      addClauses (some o) index clauses = some o₁ ∧ Omits v edge side o₁' o₁ := by
  induction clauses generalizing o o' index with
  | nil => exact ⟨o', o, rfl, rfl, h⟩
  | cons c clauses ih =>
    obtain ⟨hc, hclauses⟩ := List.forall_mem_cons.1 hv
    obtain ⟨o₁', o₁, hadd', hadd, hfirst⟩ := h.addClause hc
    rw [Outline.addClauses, Outline.addClauses, hadd', hadd]
    exact ih hfirst hclauses

end Omits

theorem addClauses_append (o? : Option Outline) (index : Nat) (before after : List ResolvedClause) :
    addClauses o? index (before ++ after) =
      addClauses (addClauses o? index before) (index + before.length) after := by
  induction before generalizing o? index with
  | nil => rfl
  | cons c before ih =>
    rw [List.cons_append, addClauses, ih, List.length_cons, Nat.add_assoc, Nat.add_comm 1]
    rfl

/-! ## The clause of the name -/

/-- One end fewer is looked up. -/
theorem omits_attachEnds (hedge : edge ∈ o.bindings) (hnodup : ends.Nodup) (hv : v ∈ ends)
    (hside : endSides src dst v = [side])
    (hothers : ∀ w ∈ ends, w ≠ v → endSides src' dst' w = endSides src dst w) :
    Omits v edge side ((ends.erase v).foldl (attachEnd src' edge dst') o)
      (ends.foldl (attachEnd src edge dst) o) := by
  induction ends generalizing o with
  | nil => exact absurd hv List.not_mem_nil
  | cons w ends ih =>
    obtain ⟨hw, hnodup⟩ := List.nodup_cons.1 hnodup
    obtain ⟨hfirst, hothers⟩ := List.forall_mem_cons.1 hothers
    by_cases heq : w = v
    · subst heq
      rw [List.erase_cons_head, List.foldl_cons,
        attachEnds_congr o fun w' hw' => hothers w' hw' fun heq => hw (heq ▸ hw')]
      have hlookup : Omits w edge side o (attachEnd src edge dst o w) := by
        rw [attachEnd, hside]
        exact .lookup hedge
      exact hlookup.attachEnds ends
    · have hv := (List.mem_cons.1 hv).resolve_left (Ne.symm heq)
      rw [List.erase_cons_tail (by simpa using heq), List.foldl_cons, List.foldl_cons, attachEnd,
        attachEnd, hfirst heq]
      exact ih (List.mem_append_left _ hedge) hnodup hv hothers

section Ends

variable {f : Binding → Binding} (hothers : ∀ w ∈ [src, dst], w ≠ v → f w = w)

theorem ends_map (f : Binding → Binding) : [(f src, srcColumn), (f dst, dstColumn)] =
    [(src, srcColumn), (dst, dstColumn)].map (Prod.map f id) := rfl

include hothers

/-- An end that is not there is not compared. -/
theorem boundEnds_map (hv : v ∉ bs) (hfv : f v ∉ bs) :
    boundEnds bs tag (f src) (f dst) = boundEnds bs tag src dst := by
  rw [boundEnds, ends_map, List.filterMap_map]
  refine List.filterMap_congr ?_
  rintro ⟨w, side⟩ hw
  have hw : w ∈ [src, dst] := List.mem_map_of_mem (f := Prod.fst) hw
  by_cases heq : w = v
  · simp only [Function.comp_apply, Prod.map_apply, heq, hfv, hv, if_false]
  · simp only [Function.comp_apply, Prod.map_apply, hothers w hw heq, id]

theorem endSides_map {w : Binding} (hne : w ≠ v) (hw : w ≠ f v) :
    endSides (f src) (f dst) w = endSides src dst w := by
  rw [endSides, ends_map, List.filterMap_map]
  refine List.filterMap_congr ?_
  rintro ⟨u, side⟩ hu
  have hu : u ∈ [src, dst] := List.mem_map_of_mem (f := Prod.fst) hu
  by_cases heq : u = v
  · simp only [Function.comp_apply, Prod.map_apply, heq, Ne.symm hne, Ne.symm hw, if_false]
  · simp only [Function.comp_apply, Prod.map_apply, hothers u hu heq, id]

/-- An end without a name is not looked up. -/
theorem newEnds_map (hnameless : (f v).name = none) :
    newEnds bs (f src) (f dst) = (newEnds bs src dst).erase v := by
  have hnew : ∀ w ∈ [src, dst], ((f w).name.isSome && !decide (f w ∈ bs)) =
      (w != v && (w.name.isSome && !decide (w ∈ bs))) := by
    intro w hw
    by_cases heq : w = v
    · rw [heq, hnameless, bne_self_eq_false]
      rfl
    · rw [hothers w hw heq, bne_iff_ne.2 heq, Bool.true_and]
  have hmap : [f src, f dst] = [src, dst].map f := rfl
  have hfilter : ([src, dst].filter fun w => (f w).name.isSome && !decide (f w ∈ bs)) =
      [src, dst].filter fun w => w != v && (w.name.isSome && !decide (w ∈ bs)) :=
    List.filter_congr hnew
  rw [newEnds, newEnds, (nodup_eraseDups _).erase_eq_filter, filter_eraseDups, List.filter_filter,
    hmap, List.filter_map]
  simp only [Function.comp_def, hfilter]
  refine congrArg List.eraseDups ((List.map_congr_left fun w hw => ?_).trans (List.map_id _))
  obtain ⟨hw, hpass⟩ := List.mem_filter.1 hw
  exact hothers w hw (bne_iff_ne.1 (Bool.and_eq_true_iff.1 hpass).1)

/-- A positive edge clause one of whose ends loses its name looks up one vertex fewer. -/
theorem omits_addEdgeClause (hend : (v, side) ∈ [(src, srcColumn), (dst, dstColumn)])
    (hne : src ≠ dst) (hname : v.name.isSome = true) (hnameless : (f v).name = none)
    (hedge : v ≠ edge) (hv : v ∉ bindingsSoFar o?) (hfv : f v ∉ bindingsSoFar o?) :
    Omits v edge side (addEdgeClause o? (f src) edge (f dst)) (addEdgeClause o? src edge dst) := by
  have hadd : addEdge o? (f src) edge (f dst) = addEdge o? src edge dst := by
    cases o? with
    | none => rfl
    | some o =>
      have hends : boundEnds o.bindings edge.column (f src) (f dst) =
          boundEnds o.bindings edge.column src dst := boundEnds_map hothers hv hfv
      simp only [addEdge, hends]
  have hnew : v ∉ (addEdge o? src edge dst).bindings := by
    rw [bindings_addEdge, mem_carry]
    exact fun hmem => hmem.elim hv hedge
  simp only [addEdgeClause, hadd, newEnds_map hothers hnameless]
  refine omits_attachEnds (mem_bindings_addEdge o? src edge dst) (nodup_eraseDups _)
    (mem_newEnds.2 ⟨(mem_sides hend).1, hname, hnew⟩) ?_ fun w hw hwv => ?_
  · rcases List.mem_cons.1 hend with heq | hend
    · obtain ⟨rfl, rfl⟩ := Prod.mk.inj heq
      simp only [endSides, List.filterMap_cons, if_pos, if_neg (Ne.symm hne), List.filterMap_nil]
    · obtain ⟨rfl, rfl⟩ := Prod.mk.inj (List.mem_singleton.1 hend)
      simp only [endSides, List.filterMap_cons, if_pos, if_neg hne, List.filterMap_nil]
  · refine endSides_map hothers hwv fun heq => ?_
    rw [heq, mem_newEnds, hnameless] at hw
    cases hw.2.1

end Ends

end Outline

/-! ## Patterns -/

/-- A clause with the binding of a name, among clauses that do not have the name. -/
structure Resolution.UsesOnce (r : Resolution) (x : String) (v : Binding)
    (before : List ResolvedClause) (c : ResolvedClause) (after : List ResolvedClause) : Prop where
  clauses_eq : r.clauses = before ++ c :: after
  notMem : ∀ c' ∈ before ++ after, v ∉ c'.bindings
  kept : ∀ c' ∈ before ++ after, c'.mapSlots (eraseName x) = c'

namespace Pattern

variable {p : Pattern} {r : Resolution} {o : Outline} {src edge dst : Binding} {clause : EdgeClause}
  {side : String} (hr : p.resolve = .ok r)

include hr

theorem slots_eq : p.slots = r.clauses.flatMap fun c => c.bindings.map (·.name) := by
  obtain ⟨clauses, bindings, hok, -, rfl⟩ := resolve_eq_ok_iff.1 hr
  rw [slots, ← map_clause_of_resolveClauses .nil hok, List.flatMap_map]
  exact List.flatMap_congr fun c hc => (names_of_resolveClauses .nil hok c hc).symm

/-- The bindings of a resolved clause are in scope. -/
theorem binding_mem (hc : c ∈ r.clauses) : ∀ b ∈ c.bindings, b ∈ r.bindings := by
  obtain ⟨clauses, bindings, hok, -, rfl⟩ := resolve_eq_ok_iff.1 hr
  obtain ⟨_, _, -, hsteps, hsubset⟩ := exists_steps_of_mem .nil hok hc
  exact fun b hb => hsubset b (hsteps.found_subset b hb)

/-- The clause of a name that occurs once has the name once, and the other clauses do not have
it. -/
theorem exists_usesOnce (honce : p.slots.count (some x) = 1) (hc : c ∈ r.clauses)
    (hv : v ∈ c.bindings) (hname : v.name = some x) :
    (c.bindings.map (·.name)).count (some x) = 1 ∧ ∃ before after, r.UsesOnce x v before c after := by
  rw [slots_eq hr] at honce
  obtain ⟨hcount, before, after, hsplit, hfree⟩ :=
    exists_around honce hc (hname ▸ List.mem_map_of_mem hv)
  refine ⟨hcount, before, after, hsplit, fun c' hc' hv' => ?_, fun c' hc' => ?_⟩
  · exact hfree c' hc' (hname ▸ List.mem_map_of_mem hv')
  · have hmem : c' ∈ r.clauses := by
      rw [hsplit]
      exact ((List.sublist_cons_self c after).append_left before).mem hc'
    obtain ⟨clauses, bindings, hok, -, rfl⟩ := resolve_eq_ok_iff.1 hr
    have hnames := names_of_resolveClauses .nil hok c' hmem
    refine ResolvedClause.mapSlots_eq_self hnames fun s hs => eraseName_eq_self fun heq => ?_
    rw [heq, ← hnames] at hs
    exact hfree c' hc' hs

section UsesOnce

variable {before after : List ResolvedClause} (hscope : Scope r.bindings)
  (h : r.UsesOnce x v before c after) (hv : v ∈ c.bindings)

include hscope h hv

/-- Before the clause of the name, neither its binding is there nor what is left of it. -/
theorem notMem_before :
    v ∉ Outline.bindingsSoFar (Outline.addClauses none 0 before) ∧
      v.mapName (eraseName x) ∉ Outline.bindingsSoFar (Outline.addClauses none 0 before) := by
  have hc : c ∈ r.clauses := h.clauses_eq ▸ List.mem_append_right _ List.mem_cons_self
  have hscans {b : Binding} (hb : b ∈ Outline.bindingsSoFar (Outline.addClauses none 0 before)) :
      b ∈ r.bindings ∧ b ≠ v := by
    obtain ⟨c', hc', hscans⟩ := (Outline.exists_scans hb).resolve_left List.not_mem_nil
    refine ⟨binding_mem hr ?_ b hscans.mem, fun heq => ?_⟩
    · rw [h.clauses_eq]
      exact List.mem_append_left _ hc'
    · exact h.notMem c' (List.mem_append_left _ hc') (heq ▸ hscans.mem)
  refine ⟨fun hmem => (hscans hmem).2 rfl, fun hmem => (hscans hmem).2 ?_⟩
  exact hscope.column_inj (hscans hmem).1 (binding_mem hr hc v hv) rfl

/-- All other bindings of the clause keep their names. -/
theorem mapName_others (hname : v.name = some x) :
    ∀ b ∈ c.bindings, b ≠ v → b.mapName (eraseName x) = b := by
  have hc : c ∈ r.clauses := h.clauses_eq ▸ List.mem_append_right _ List.mem_cons_self
  refine fun b hb hne => Binding.mapName_eq_self (eraseName_eq_self fun hbname => hne ?_)
  exact hscope.name_inj b (binding_mem hr hc b hb) v (binding_mem hr hc v hv) x hbname hname

end UsesOnce

/-- Where a name that occurs once is that of an end of a positive edge clause, the outline without
the name omits the join that looks up its vertex. -/
theorem exists_omits (hscope : Scope r.bindings)
    (ho : Outline.addClauses none 0 r.clauses = some o) (honce : p.slots.count (some x) = 1)
    (hc : .edge clause src edge dst ∈ r.clauses) (hpositive : clause.negated = false)
    (hedge : v ≠ edge) (hend : (v, side) ∈ [(src, srcColumn), (dst, dstColumn)])
    (hname : v.name = some x) :
    ∃ o', Outline.addClauses none 0 (r.mapSlots (eraseName x)).clauses = some o' ∧
      Outline.Omits v edge side o' o := by
  have hv : v ∈ [src, edge, dst] := by
    rcases (Outline.mem_sides hend).1 with rfl | rfl
    · exact List.mem_cons_self
    · exact List.mem_cons_of_mem _ (List.mem_cons_of_mem _ List.mem_cons_self)
  obtain ⟨hcount, before, after, h⟩ := exists_usesOnce hr honce hc hv hname
  obtain ⟨hnew, hfnew⟩ := notMem_before hr hscope h hv
  have hothers := mapName_others hr hscope h hv hname
  have hne : src ≠ dst := by
    rintro rfl
    have hsrc : v = src := (Outline.mem_sides hend).1.elim id id
    simp only [ResolvedClause.bindings, List.map_cons, List.map_nil, ← hsrc, hname,
      List.count_cons_self, List.count_cons, List.count_nil] at hcount
    omega
  have homits := Outline.omits_addEdgeClause (fun w hw => hothers w (Outline.ends_subset hw)) hend hne
    (hname ▸ rfl) ((congrArg (eraseName x) hname).trans (eraseName_self x)) hedge hnew hfnew
  obtain ⟨o', o₁, hadds', hadds, homits⟩ := homits.addClauses
    fun c hc => h.notMem c (List.mem_append_right before hc)
  have hclause (e : EdgeClause) (src edge dst : Binding) (hpositive : e.negated = false) :
      Outline.addClause (Outline.addClauses none 0 before) (0 + before.length)
        (.edge e src edge dst) =
          some (Outline.addEdgeClause (Outline.addClauses none 0 before) src edge dst) := by
    rw [Outline.addClause, if_neg (Bool.eq_false_iff.1 hpositive)]
  rw [h.clauses_eq, Outline.addClauses_append, Outline.addClauses, hclause _ _ _ _ hpositive,
    hadds] at ho
  obtain rfl := Option.some.inj ho
  refine ⟨o', ?_, homits⟩
  have hclauses : (r.mapSlots (eraseName x)).clauses =
      before ++ ResolvedClause.mapSlots (eraseName x) (.edge clause src edge dst) :: after := by
    show r.clauses.map _ = _
    rw [h.clauses_eq, List.map_append, List.map_cons,
      List.map_congr_left fun c hc => h.kept c (List.mem_append_left _ hc),
      List.map_congr_left fun c hc => h.kept c (List.mem_append_right _ hc), List.map_id',
      List.map_id']
  rw [hclauses, Outline.addClauses_append, Outline.addClauses, ResolvedClause.mapSlots,
    hothers edge (List.mem_cons_of_mem _ List.mem_cons_self) (Ne.symm hedge),
    hclause (clause.mapSlots (eraseName x)) _ _ _ hpositive, hadds']

end Pattern

namespace Schema

variable {s : Schema} {p : Pattern} {plan : MatchPlan}

/-- A pattern with a plan has one without a name that occurs once. -/
theorem exists_compilePattern_erase (hplan : s.compilePattern p = .ok plan)
    (honce : p.slots.count (some x) = 1) :
    ∃ r plan', p.resolve = .ok r ∧ (p.erase x).resolve = .ok (r.mapSlots (eraseName x)) ∧
      s.compilePattern (p.erase x) = .ok plan' := by
  obtain ⟨⟨r, hr⟩, hfirst⟩ := Pattern.wellBound_iff.1 (wellBound_of_compilePattern hplan)
  have hr' := Pattern.resolve_mapSlots hr (faithful_eraseName honce.le)
  refine ⟨r, ?_⟩
  rcases s.compilePattern_cases (p.erase x) with ⟨-, plan', hplan', -⟩ | ⟨hbound, -⟩
  · exact ⟨plan', hr, hr', hplan'⟩
  · refine absurd (Pattern.wellBound_iff.2 ⟨⟨_, hr'⟩, fun c hc => ?_⟩) hbound
    have hc : (p.clauses.map (Clause.mapSlots (eraseName x))).head? = some c := hc
    rw [List.head?_map] at hc
    obtain ⟨c, hhead, rfl⟩ := Option.map_eq_some_iff.1 hc
    rw [Clause.negated_mapSlots]
    exact hfirst c hhead

/-- Erasing the name of a vertex clause or of a positive edge keeps the ends of all edges. -/
theorem keepsEnds_eraseName (honce : p.slots.count (some x) = 1)
    (hx : p.NamesElement x) : ∀ c ∈ p.clauses, c.KeepsEnds (eraseName x) := by
  have hkeeps {e : EdgeClause} (hsrc : e.src ≠ some x) (hdst : e.dst ≠ some x)
      (hedge : e.negated = true → e.edge ≠ some x) : (Clause.edge e).KeepsEnds (eraseName x) :=
    ⟨by rw [eraseName_eq_self hsrc], by rw [eraseName_eq_self hdst],
      fun hnegated => by rw [eraseName_eq_self (hedge hnegated)]⟩
  obtain ⟨c, hc, hslot, hkeep⟩ : ∃ c ∈ p.clauses, some x ∈ c.slots.map Prod.snd ∧
      ((c.slots.map Prod.snd).count (some x) = 1 → c.KeepsEnds (eraseName x)) := by
    rcases hx with hx | ⟨e, he, hpositive, hx⟩
    · exact ⟨_, hx, List.mem_cons_self, fun _ => trivial⟩
    · refine ⟨_, he, hx ▸ List.mem_cons_of_mem _ List.mem_cons_self, fun hcount => ?_⟩
      simp only [Clause.slots, List.map_cons, List.map_nil, hx, List.count_cons, List.count_nil,
        beq_self_eq_true, if_true] at hcount
      refine hkeeps (fun hsrc => ?_) (fun hdst => ?_) fun hnegated => ?_
      · rw [hsrc, beq_self_eq_true, if_pos rfl] at hcount
        omega
      · rw [hdst, beq_self_eq_true, if_pos rfl] at hcount
        omega
      · cases hpositive.symm.trans hnegated
  obtain ⟨hcount, before, after, hsplit, hfree⟩ := exists_around honce hc hslot
  intro c' hc'
  rw [hsplit, List.mem_append, List.mem_cons] at hc'
  by_cases heq : c' = c
  · exact heq ▸ hkeep hcount
  · have hmem : c' ∈ before ++ after :=
      List.mem_append.2 (hc'.imp_right fun hc' => hc'.resolve_left heq)
    cases c' with
    | vertex => trivial
    | edge e =>
      have hfree := hfree _ hmem
      simp only [Clause.slots, List.map_cons, List.map_nil, List.mem_cons, List.not_mem_nil, or_false,
        not_or] at hfree
      exact hkeeps (Ne.symm hfree.1) (Ne.symm hfree.2.2) fun _ => Ne.symm hfree.2.1

/-- Without the name of a vertex clause or of a positive edge that occurs once, the plan below the
projection is the same. -/
theorem child_erase {plan' : MatchPlan} (hplan : s.compilePattern p = .ok plan)
    (hplan' : s.compilePattern (p.erase x) = .ok plan') (honce : p.slots.count (some x) = 1)
    (hx : p.NamesElement x) : plan'.child = plan.child := by
  obtain ⟨r, hr, -⟩ := compilePattern_eq_ok_iff.1 hplan
  obtain ⟨-, hcompile⟩ := compilePattern_mapSlots hr hplan (faithful_eraseName honce.le)
    (keepsEnds_eraseName honce hx)
  obtain rfl := Except.ok.inj (hcompile.symm.trans hplan')
  rfl

end Schema

end GraphMotif
