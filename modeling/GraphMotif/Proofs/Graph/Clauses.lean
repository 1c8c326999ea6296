import GraphMotif.Proofs.EraseDups
import GraphMotif.Proofs.Graph.Links
import GraphMotif.Proofs.Graph.Search
import GraphMotif.Proofs.Plan.Compile

/-!
# Clauses narrow the search

Adding a clause to a frontier that finds the assignments satisfying the clauses before makes it find
those that satisfy the clause as well: the ends that are there are compared when the edge is joined,
the others when they are looked up, and a negated clause is an anti-join.
-/

namespace GraphMotif

/-- One more element with its binding, unless it is there. -/
def seat (carried : List (Site × Binding)) (b : Binding) (clause : Nat) : List (Site × Binding) :=
  if b.site clause ∈ carried.map Prod.fst then carried else carried ++ [(b.site clause, b)]

section Seat

variable {scope : List Binding} {limit clause : Nat} {carried : List (Site × Binding)}
  {b : Binding} {s : Site}

theorem mem_sites_seat :
    s ∈ (seat carried b clause).map Prod.fst ↔ s ∈ carried.map Prod.fst ∨ s = b.site clause := by
  rw [seat]
  split
  · next h => exact ⟨.inl, fun h' => h'.elim id fun heq => heq ▸ h⟩
  · rw [List.map_append, List.map_singleton, List.mem_append, List.mem_singleton]

theorem Sited.mem_seat (h : Sited scope limit carried) (hb : b ∈ scope) :
    (b.site limit, b) ∈ seat carried b limit := by
  rw [seat]
  split
  · next hs => exact h.mem_of_site hb hs
  · exact List.mem_concat_self

theorem Sited.map_snd_seat (h : Sited scope limit carried) (hb : b ∈ scope)
    (hfresh : b.name = none → b ∉ carried.map Prod.snd) :
    (seat carried b limit).map Prod.snd = carry (carried.map Prod.snd) b := by
  simp only [seat, carry, h.site_mem_iff hb hfresh]
  split
  · rfl
  · rw [List.map_append, List.map_singleton]

theorem Sited.succ (h : Sited scope limit carried) : Sited scope (limit + 1) carried :=
  h.mono h.isScope (fun _ hb => hb) (Nat.le_succ limit)

theorem Sited.concat_site (h : Sited scope limit carried) (hb : b ∈ scope)
    (hfresh : b.name = none → b ∉ carried.map Prod.snd)
    (hs : b.site limit ∉ carried.map Prod.fst) :
    Sited scope (limit + 1) (carried ++ [(b.site limit, b)]) :=
  h.succ.concat hb (Nat.lt_succ_self limit) hs (mt (h.site_mem_iff hb hfresh).2 hs)

end Seat

namespace Graph

variable {g : Graph} {p : Pattern} {edge : Site} {e : EdgeClause}

/-! ## Steps -/

/-- What is found so far; without a frontier there is nothing to assign. -/
def FindsSoFar (g : Graph) (p : Pattern) (scope : List Binding) (limit : Nat) (f? : Option Frontier)
    (carried : List (Site × Binding)) (cond : Assignment → Bool) : Prop :=
  match f? with
  | none => Scope scope ∧ carried = [] ∧ ∀ a, cond a = true
  | some f => g.Finds p scope limit f carried cond

variable {scope : List Binding} {limit : Nat} {f : Frontier} {f? : Option Frontier}
  {carried : List (Site × Binding)} {cond : Assignment → Bool} {v src b dst : Binding}

theorem FindsSoFar.sited (h : g.FindsSoFar p scope limit f? carried cond) :
    Sited scope limit carried := by
  cases f? with
  | none =>
    obtain ⟨hscope, rfl, -⟩ := h
    exact ⟨hscope, List.forall_mem_nil _, List.forall_mem_nil _, .nil, .nil⟩
  | some f => exact Finds.sited h

/-- A vertex clause asks for a vertex. -/
theorem addVertex_finds (h : g.FindsSoFar p scope limit f? carried cond) (hsteady : g.SteadyKeys p)
    (hv : v ∈ scope) (hkind : v.kind = .vertex)
    (hfresh : v.name = none → v ∉ carried.map Prod.snd) :
    g.Finds p scope (limit + 1) (g.schema.addVertex f? v) (seat carried v limit) cond := by
  cases f? with
  | none =>
    have hsited := h.sited
    obtain ⟨hscope, rfl, hcond⟩ := h
    have hscan := Finds.scan (g := g) (p := p) (hsited.concat_site hv hfresh List.not_mem_nil)
    rw [hkind] at hscan
    exact hscan.congr fun a => (hcond a).symm
  | some f =>
    have h : g.Finds p scope limit f carried cond := h
    simp only [Schema.addVertex, seat, h.sited.site_mem_iff hv hfresh, h.carries.binds_iff hv]
    split
    · exact h.succ
    · next hs =>
      have hs := mt (h.sited.site_mem_iff hv hfresh).1 hs
      have hlinks : ∀ k ∈ ([] : List Link), g.Relates p (carried.map Prod.fst) [v.site limit] k :=
        List.forall_mem_nil _
      have hextend := h.succ.extend hsteady (h.sited.concat_site hv hfresh hs) hlinks rfl
      rw [hkind] at hextend
      exact hextend.congr fun a => Bool.and_true _

/-- The equalities on the bound ends of an edge are the demands on the ends that are there. -/
theorem Finds.endEqualities_eq (h : g.Finds p scope limit f carried cond) (edge : Site)
    {tag : Site → String} (htag : ∀ x ∈ carried, tag x.1 = x.2.column)
    (hends : ∀ v ∈ [src, dst],
      v ∈ scope ∧ v.kind = .vertex ∧ (v.name = none → v ∉ carried.map Prod.snd))
    (hsrc : src.name = e.src) (hdst : dst.name = e.dst) :
    Schema.endEqualities f (tag edge) src dst =
      (boundLinks (carried.map Prod.fst) edge e.namedEnds).map (Link.equality tag) := by
  have hnamed : e.namedEnds =
      [(src, srcColumn), (dst, dstColumn)].filterMap fun x => x.1.name.map (·, x.2) := by
    rw [EdgeClause.namedEnds, ← hsrc, ← hdst]
    rfl
  -- both sides are made end by end: an end is kept if it has a name and is there
  rw [hnamed, boundLinks, List.filter_filterMap, List.map_filterMap, List.map_filterMap,
    Schema.endEqualities]
  refine List.filterMap_congr fun x hx => ?_
  have hmem : x.1 ∈ [src, dst] := List.mem_map_of_mem (f := Prod.fst) hx
  obtain ⟨hscope, hkind, hfresh⟩ := hends x.1 hmem
  cases hname : x.1.name with
  | none =>
    simp only [h.carries.binds_eq hscope, hfresh hname, decide_false, Bool.false_eq_true, if_false,
      Option.map_none, Option.filter_none]
  | some name =>
    have hiff := h.sited.named_mem_iff hscope hname
    rw [hkind] at hiff
    simp only [h.carries.binds_eq hscope, Option.map_some, Option.filter_some, hiff]
    by_cases hbound : x.1 ∈ carried.map Prod.snd
    · have htagged := htag _ (h.sited.mem_of_binding hname hbound)
      rw [hkind] at htagged
      simp only [hbound, decide_true, if_true, Option.map_some, Link.equality, endLink, htagged,
        Binding.idColumn]
    · simp only [hbound, decide_false, Bool.false_eq_true, if_false, Option.map_none]

/-- The edge of a positive clause is compared with the ends that are there. -/
theorem addEdge_finds (h : g.FindsSoFar p scope limit f? carried cond) (hsteady : g.SteadyKeys p)
    (hb : b ∈ scope) (hkind : b.kind = .edge) (hfresh : b.name = none → b ∉ carried.map Prod.snd)
    (hends : ∀ v ∈ [src, dst],
      v ∈ scope ∧ v.kind = .vertex ∧ (v.name = none → v ∉ carried.map Prod.snd))
    (hsrc : src.name = e.src) (hdst : dst.name = e.dst)
    (hnamed : ∀ x ∈ e.namedEnds, x ∈ p.namedEnds) :
    g.Finds p scope (limit + 1) (g.schema.addEdge f? src b dst) (seat carried b limit) fun a =>
      cond a && (boundLinks (carried.map Prod.fst) (b.site limit) e.namedEnds).all (g.holds a) := by
  have hedge : (b.site limit).kind = .edge := (b.kind_site limit).trans hkind
  cases f? with
  | none =>
    -- the first clause: no end is there, so nothing is compared
    have hsited := h.sited
    obtain ⟨hscope, rfl, hcond⟩ := h
    have hscan := Finds.scan (g := g) (p := p) (hsited.concat_site hb hfresh List.not_mem_nil)
    rw [hkind] at hscan
    refine hscan.congr fun a => ?_
    rw [hcond a, Bool.true_and]
    exact ((all_boundLinks_iff hedge).2 fun _ _ _ hs => absurd hs List.not_mem_nil).symm
  | some f =>
    have h : g.Finds p scope limit f carried cond := h
    have hsite := h.sited.site_mem_iff hb hfresh
    simp only [Schema.addEdge, seat, h.carries.binds_iff hb, hsite]
    split
    · -- the edge recurs: its row is there, and it is only compared with the ends
      next hbound =>
      have hmem := h.sited.mem_of_site hb (hsite.2 hbound)
      have heq := h.endEqualities_eq (b.site limit) (fun x hx => h.sited.tagOf_eq hx)
        hends hsrc hdst
      rw [h.sited.tagOf_eq hmem] at heq
      have hlinks : ∀ k ∈ boundLinks (carried.map Prod.fst) (b.site limit) e.namedEnds,
          g.Relates p (carried.map Prod.fst) (carried.map Prod.fst) k := fun k hk =>
        have hrelates := relates_boundLinks hedge hnamed k hk
        { hrelates with right := List.mem_singleton.1 hrelates.right ▸ hsite.2 hbound }
      split
      · next hempty =>
        rw [List.isEmpty_iff.1 hempty] at heq
        refine h.succ.congr fun a => ?_
        rw [List.map_eq_nil_iff.1 heq.symm, List.all_nil, Bool.and_true]
      · exact h.succ.filter hsteady hlinks heq
    · -- a new edge is joined on the ends; its tag is that of the longer list
      next hbound =>
      have hnew := mt hsite.1 hbound
      have hsited := h.sited.concat_site hb hfresh hnew
      have heq := h.endEqualities_eq (b.site limit)
        (fun x hx => hsited.tagOf_eq (List.mem_append_left _ hx)) hends hsrc hdst
      rw [hsited.tagOf_eq List.mem_concat_self] at heq
      have hextend := h.succ.extend hsteady hsited (relates_boundLinks hedge hnamed) heq
      rwa [hkind] at hextend

/-- Another end of an edge is looked up at the columns of the edge that hold its identity. -/
theorem attachEnd_finds (h : g.Finds p scope (limit + 1) f carried cond) (hsteady : g.SteadyKeys p)
    (hb : (edge, b) ∈ carried) (hedge : edge.kind = .edge) (hv : v ∈ scope)
    (hkind : v.kind = .vertex) (hname : v.name.isSome = true) (hnew : v ∉ carried.map Prod.snd)
    (hnamed : ∀ name, v.name = some name →
      ∀ side ∈ endSides src dst v, (name, side) ∈ p.namedEnds) :
    g.Finds p scope (limit + 1) (g.schema.attachEnd b f (v, endSides src dst v))
      (carried ++ [(v.site limit, v)]) fun a => cond a &&
        (endSides src dst v).all fun side => g.atEnd side (a (v.site limit)) (a edge) := by
  obtain ⟨name, hname⟩ := Option.isSome_iff_exists.1 hname
  have hvsite : v.site limit = .named .vertex name := by
    rw [Binding.site_of_name hname, hkind]
  have hsite : v.site limit ∉ carried.map Prod.fst := by
    rw [Binding.site_of_name hname]
    exact mt (h.sited.named_mem_iff hv hname).1 hnew
  have hsited := h.sited.concat hv (Nat.lt_succ_self limit) hsite hnew
  have hlinks : ∀ k ∈ (endSides src dst v).map (lookupLink name edge),
      g.Relates p (carried.map Prod.fst) [v.site limit] k := by
    intro k hk
    obtain ⟨side, hside, rfl⟩ := List.mem_map.1 hk
    rw [hvsite]
    exact relates_lookupLink (List.mem_map_of_mem (f := Prod.fst) hb) hedge
      (hnamed name hname side hside)
  have heq : ((endSides src dst v).map fun side =>
      { left := qualified b.column side, right := v.idColumn : Equality }) =
        ((endSides src dst v).map (lookupLink name edge)).map
          (Link.equality (tagOf (carried ++ [(v.site limit, v)]))) := by
    rw [List.map_map]
    refine List.map_congr_left fun side _ => ?_
    simp only [Function.comp_apply, Link.equality, lookupLink, Binding.idColumn, ← hvsite,
      hsited.tagOf_eq (List.mem_append_left _ hb), hsited.tagOf_eq List.mem_concat_self]
  have hextend := h.extend hsteady hsited hlinks heq
  rw [hkind] at hextend
  refine hextend.congr fun a => ?_
  rw [List.all_map]
  refine congrArg (fun x => cond a && x) (all_congr_of_mem fun side _ => ?_)
  rw [hvsite]
  exact holds_lookupLink hedge

/-- The other ends of an edge are looked up one after the other. -/
theorem attachEnds_finds (h : g.Finds p scope (limit + 1) f carried cond) (hsteady : g.SteadyKeys p)
    (hb : (edge, b) ∈ carried) (hedge : edge.kind = .edge) {ends : List Binding}
    (hnodup : ends.Nodup) (hends : ∀ v ∈ ends, v ∈ scope ∧ v.kind = .vertex ∧
      v.name.isSome = true ∧ v ∉ carried.map Prod.snd)
    (hnamed : ∀ v ∈ ends, ∀ name, v.name = some name →
      ∀ side ∈ endSides src dst v, (name, side) ∈ p.namedEnds) :
    g.Finds p scope (limit + 1)
      ((ends.map fun v => (v, endSides src dst v)).foldl (g.schema.attachEnd b) f)
      (carried ++ ends.map fun v => (v.site limit, v)) fun a => cond a && ends.all fun v =>
        (endSides src dst v).all fun side => g.atEnd side (a (v.site limit)) (a edge) := by
  induction ends generalizing f carried cond with
  | nil =>
    simp only [List.map_nil, List.append_nil]
    exact h.congr fun a => (Bool.and_true _).symm
  | cons v ends ih =>
    obtain ⟨⟨hv, hkind, hname, hnew⟩, hrest⟩ := List.forall_mem_cons.1 hends
    obtain ⟨hnotMem, hnodup⟩ := List.nodup_cons.1 hnodup
    obtain ⟨hvnamed, hnamed⟩ := List.forall_mem_cons.1 hnamed
    have hattach := attachEnd_finds h hsteady hb hedge hv hkind hname hnew hvnamed
    -- no other end is the one that was just looked up
    have hrest' : ∀ v' ∈ ends, v' ∈ scope ∧ v'.kind = .vertex ∧ v'.name.isSome = true ∧
        v' ∉ (carried ++ [(v.site limit, v)]).map Prod.snd := fun v' hv' => by
      obtain ⟨hscope, hkind', hname', hnew'⟩ := hrest v' hv'
      refine ⟨hscope, hkind', hname', fun hmem => ?_⟩
      rw [List.map_append, List.map_singleton, List.mem_append, List.mem_singleton] at hmem
      exact hmem.elim hnew' fun heq : v' = v => hnotMem (heq ▸ hv')
    have hattaches := ih hattach (List.mem_append_left _ hb) hnodup hrest' hnamed
    rw [List.append_assoc, List.singleton_append] at hattaches
    exact hattaches.congr fun a => by rw [List.all_cons, Bool.and_assoc]

/-! ## Edge clauses -/

theorem mem_newEnds_of_notMem {v : Binding} (hb : b.kind = .edge) (hv : v.kind = .vertex)
    (hend : v = src ∨ v = dst) (hname : v.name.isSome = true) (hnew : v ∉ carried.map Prod.snd) :
    v ∈ newEnds (carry (carried.map Prod.snd) b) src dst := by
  refine mem_newEnds.2 ⟨hend, hname, fun hmem => (mem_carry.1 hmem).elim hnew fun heq => ?_⟩
  rw [heq, hb] at hv
  exact absurd hv nofun

theorem mem_namedEnds_of_endSides (hsrc : src.name = e.src) (hdst : dst.name = e.dst)
    {name side : String} (hname : v.name = some name) (hside : side ∈ endSides src dst v) :
    (name, side) ∈ e.namedEnds := by
  rw [EdgeClause.mem_namedEnds]
  rcases mem_endSides.1 hside with ⟨rfl, rfl⟩ | ⟨rfl, rfl⟩
  · exact .inl ⟨hsrc ▸ hname, rfl⟩
  · exact .inr ⟨hdst ▸ hname, rfl⟩

/-- The ends that are compared with the edge and the ends that are looked up are all named ends. -/
theorem all_ends_eq (hsited : Sited scope limit carried) (hkind : b.kind = .edge)
    (hends : ∀ v ∈ [src, dst], v ∈ scope ∧ v.kind = .vertex) (hname : b.name = e.edge)
    (hsrc : src.name = e.src) (hdst : dst.name = e.dst) (a : Assignment) :
    ((boundLinks (carried.map Prod.fst) (b.site limit) e.namedEnds).all (g.holds a) &&
      (newEnds (carry (carried.map Prod.snd) b) src dst).all fun v =>
        (endSides src dst v).all fun side =>
          g.atEnd side (a (v.site limit)) (a (b.site limit))) =
      g.hasEnds a e (a (e.edge.site .edge limit)) := by
  have hsite : b.site limit = e.edge.site .edge limit := by rw [Binding.site, hname, hkind]
  have hbinding {name side : String} (hmem : (name, side) ∈ e.namedEnds) :
      ∃ v ∈ [src, dst], v.name = some name ∧ side ∈ endSides src dst v := by
    rcases EdgeClause.mem_namedEnds.1 hmem with ⟨hslot, rfl⟩ | ⟨hslot, rfl⟩
    · exact ⟨src, List.mem_cons_self, hsrc.trans hslot, mem_endSides.2 (.inl ⟨rfl, rfl⟩)⟩
    · exact ⟨dst, List.mem_cons_of_mem _ List.mem_cons_self, hdst.trans hslot,
        mem_endSides.2 (.inr ⟨rfl, rfl⟩)⟩
  have hnamedSite {v : Binding} {name : String} (hv : v ∈ [src, dst]) (hvname : v.name = some name) :
      v.site limit = .named .vertex name := by
    rw [Binding.site_of_name hvname, (hends v hv).2]
  rw [Bool.eq_iff_iff, Bool.and_eq_true, hasEnds_iff, ← hsite,
    all_boundLinks_iff ((b.kind_site limit).trans hkind), List.all_eq_true]
  constructor
  · rintro ⟨hbound, hnew⟩ name side hmem
    obtain ⟨v, hv, hvname, hside⟩ := hbinding hmem
    have hvsite := hnamedSite hv hvname
    -- an end that is there was compared; any other one is new and was looked up
    by_cases hs : Site.named .vertex name ∈ carried.map Prod.fst
    · exact hbound name side hmem hs
    · have hiff := hsited.named_mem_iff (hends v hv).1 hvname
      rw [(hends v hv).2] at hiff
      have hnewEnd := mem_newEnds_of_notMem hkind (hends v hv).2
        ((List.mem_cons.1 hv).imp_right List.mem_singleton.1) (hvname ▸ rfl) (mt hiff.2 hs)
      rw [← hvsite]
      exact List.all_eq_true.1 (hnew v hnewEnd) side hside
  · intro hall
    refine ⟨fun name side hmem _ => hall name side hmem, fun v hv => ?_⟩
    obtain ⟨hend, hvname, -⟩ := mem_newEnds.1 hv
    have hv : v ∈ [src, dst] := List.mem_cons.2 (hend.imp_right List.mem_singleton.2)
    obtain ⟨name, hvname⟩ := Option.isSome_iff_exists.1 hvname
    refine List.all_eq_true.2 fun side hside => ?_
    rw [hnamedSite hv hvname]
    exact hall name side (mem_namedEnds_of_endSides hsrc hdst hvname hside)

/-- A positive edge clause asks for an edge and the ends that it names, and that they fit. -/
theorem addEdgeClause_finds (h : g.FindsSoFar p scope limit f? carried cond)
    (hsteady : g.SteadyKeys p) (hb : b ∈ scope) (hkind : b.kind = .edge)
    (hfresh : b.name = none → b ∉ carried.map Prod.snd)
    (hends : ∀ v ∈ [src, dst],
      v ∈ scope ∧ v.kind = .vertex ∧ (v.name = none → v ∉ carried.map Prod.snd))
    (hname : b.name = e.edge) (hsrc : src.name = e.src) (hdst : dst.name = e.dst)
    (hnamed : ∀ x ∈ e.namedEnds, x ∈ p.namedEnds) :
    g.Finds p scope (limit + 1) (g.schema.addEdgeClause f? src b dst)
      (seat carried b limit ++
        (newEnds (carry (carried.map Prod.snd) b) src dst).map fun v => (v.site limit, v))
      fun a => cond a && g.hasEnds a e (a (e.edge.site .edge limit)) := by
  have hedge := addEdge_finds h hsteady hb hkind hfresh hends hsrc hdst hnamed
  have hseat := h.sited.map_snd_seat hb hfresh
  have hpending := hedge.carries.pendingEnds_eq (hends src List.mem_cons_self).1
    (hends dst (List.mem_cons_of_mem _ List.mem_cons_self)).1
  rw [hseat] at hpending
  rw [Schema.addEdgeClause, hpending]
  refine (attachEnds_finds hedge hsteady (h.sited.mem_seat hb) ((b.kind_site limit).trans hkind)
    (nodup_eraseDups _) (fun v hv => ?_) fun v _ name hvname side hside => ?_).congr fun a => ?_
  · obtain ⟨hend, hvname, hnew⟩ := mem_newEnds.1 hv
    obtain ⟨hscope, hvkind, -⟩ := hends v (List.mem_cons.2 (hend.imp_right List.mem_singleton.2))
    exact ⟨hscope, hvkind, hvname, hseat ▸ hnew⟩
  · exact hnamed _ (mem_namedEnds_of_endSides hsrc hdst hvname hside)
  · rw [Bool.and_assoc]
    exact congrArg _ (all_ends_eq h.sited hkind (fun v hv => ⟨(hends v hv).1, (hends v hv).2.1⟩)
      hname hsrc hdst a)

/-! ## Negated clauses -/

/-- The demands of a negated clause are the equalities of its anti-join. -/
theorem negatedDemands_eq (hsited : Sited scope limit carried) (edge : Site) {tag : Site → String}
    (htag : ∀ x ∈ carried, tag x.1 = x.2.column)
    (hcarried : ∀ v ∈ [src, b, dst], v.name.isSome = true → v ∈ carried.map Prod.snd)
    (hsrckind : src.kind = .vertex) (hkind : b.kind = .edge) (hdstkind : dst.kind = .vertex)
    (hname : b.name = e.edge) (hsrc : src.name = e.src) (hdst : dst.name = e.dst) :
    g.schema.negatedDemands (tag edge) src b dst =
      (negatedLinks g.edges.names edge e).map (Link.equality tag) := by
  simp only [List.forall_mem_cons] at hcarried
  obtain ⟨hsrcbs, hbbs, hdstbs, -⟩ := hcarried
  have hcolumn {v : Binding} {name : String} (hv : v.name.isSome = true → v ∈ carried.map Prod.snd)
      (hvname : v.name = some name) : tag (.named v.kind name) = v.column :=
    htag _ (hsited.mem_of_binding hvname (hv (hvname ▸ rfl)))
  have hend {v : Binding} {slot : Slot} (side : String) (hslot : v.name = slot)
      (hv : v.name.isSome = true → v ∈ carried.map Prod.snd) (hvkind : v.kind = .vertex) :
      Schema.endDemand (tag edge) v side = ((slot.toList.map (·, side)).map fun x =>
        endLink x.1 edge x.2).map (Link.equality tag) := by
    subst hslot
    rw [Schema.endDemand]
    cases hvname : v.name with
    | none => rfl
    | some name =>
      have htagged := hcolumn hv hvname
      rw [hvkind] at htagged
      simp only [Option.isSome_some, if_true, Option.toList_some, List.map_singleton, Link.equality,
        endLink, htagged, Binding.idColumn]
  have hsame : g.schema.edgeDemand (tag edge) b = (e.edge.toList.flatMap fun name =>
      g.edges.names.map (sameLink (.named .edge name) edge)).map (Link.equality tag) := by
    rw [Schema.edgeDemand, ← hname]
    cases hbname : b.name with
    | none => rfl
    | some name =>
      have htagged := hcolumn hbbs hbname
      rw [hkind] at htagged
      rw [Option.isSome_some, if_pos rfl, Option.toList_some, List.flatMap_singleton, List.map_map]
      refine List.map_congr_left fun column _ => ?_
      simp only [Function.comp_apply, Link.equality, sameLink, htagged]
  rw [Schema.negatedDemands, hend srcColumn hsrc hsrcbs hsrckind,
    hend dstColumn hdst hdstbs hdstkind, hsame, negatedLinks, EdgeClause.namedEnds_eq,
    List.map_append, List.map_append, List.map_append]

/-- A negated clause leaves out what has an edge that it forbids. -/
theorem addNegatedClause_finds (h : g.Finds p scope limit f carried cond) (hsteady : g.SteadyKeys p)
    (hcarried : ∀ v ∈ [src, b, dst], v.name.isSome = true → v ∈ carried.map Prod.snd)
    (hsrckind : src.kind = .vertex) (hkind : b.kind = .edge) (hdstkind : dst.kind = .vertex)
    (hname : b.name = e.edge) (hsrc : src.name = e.src) (hdst : dst.name = e.dst)
    (hnamed : ∀ x ∈ e.namedEnds, x ∈ p.namedEnds) :
    g.Finds p scope limit
      (f.withPlan (.antiJoin f.plan (g.schema.scan .edge (Schema.negatedTag limit))
        (g.schema.negatedDemands (Schema.negatedTag limit) src b dst)))
      carried fun a => cond a && !g.edges.rows.any fun row =>
        g.hasEnds a e row && e.edge.all fun name => g.sameEdge (a (.named .edge name)) row := by
  -- the element whose rows are forbidden: the nameless edge of the clause
  let edge : Site := .nameless .edge limit
  have hnotMem : edge ∉ carried.map Prod.fst := fun hs =>
    Nat.lt_irrefl _ (h.sited.lt_of_nameless hs)
  have hsite {v : Binding} {name : String} (hv : v ∈ [src, b, dst]) (hvname : v.name = some name) :
      Site.named v.kind name ∈ carried.map Prod.fst :=
    List.mem_map_of_mem (f := Prod.fst)
      (h.sited.mem_of_binding hvname (hcarried v hv (hvname ▸ rfl)))
  have hlinks : ∀ k ∈ negatedLinks g.edges.names edge e,
      g.Relates p (carried.map Prod.fst) [edge] k := by
    refine relates_negatedLinks rfl hnamed (fun x hx => ?_) fun name hslot => ?_
    · rcases EdgeClause.mem_namedEnds.1 hx with ⟨hslot, -⟩ | ⟨hslot, -⟩
      · exact hsrckind ▸ hsite (by simp) (hsrc.trans hslot)
      · exact hdstkind ▸ hsite (by simp) (hdst.trans hslot)
    · exact hkind ▸ hsite (by simp) (hname.trans hslot)
  have htag : ∀ x ∈ carried, Function.update (tagOf carried) edge (Schema.negatedTag limit) x.1 =
      x.2.column := fun x hx => by
    rw [Function.update_of_ne (ne_of_mem_of_not_mem (List.mem_map_of_mem hx) hnotMem)]
    exact h.sited.tagOf_eq hx
  have heq := negatedDemands_eq (g := g) h.sited edge htag hcarried hsrckind hkind
    hdstkind hname hsrc hdst
  rw [Function.update_self] at heq
  refine (h.antiJoin hsteady limit hnotMem hlinks heq).congr fun a => ?_
  refine congrArg (fun x => cond a && !x) (any_congr_of_mem fun row _ => ?_)
  exact all_negatedLinks rfl (fun _ _ h => Site.noConfusion h) row

end Graph

end GraphMotif
