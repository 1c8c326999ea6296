import GraphMotif.Proofs.Graph.Sited
import GraphMotif.Proofs.Plan.Evaluation

/-!
# What a plan finds

A plan denotes the assignments that meet a condition when its frame tabulates them. A frontier finds
them when its plan does so under the tags of the bindings that it carries. Joins with the relation
of one more element, filters and anti-joins on demands keep this, each narrowing the condition.
-/

namespace GraphMotif

namespace Graph

/-- A plan over the tables of a graph whose frame tabulates the assignments that meet a
condition. -/
structure Denotes (g : Graph) (p : Pattern) (tag : Site → String) (plan : Plan) (sites : List Site)
    (cond : Assignment → Bool) : Prop where
  relational : plan.Relational
  supply : g.relations.Supply plan
  tabulates : g.Tabulates p tag (plan.frame g.relations) sites cond

variable {g : Graph} {p : Pattern} {tag : Site → String} {plan : Plan} {sites : List Site}
  {cond : Assignment → Bool} {s : Site} {links : List Link}

/-- The scan of the relation of an element under its tag. -/
def scanPlan (g : Graph) (tag : Site → String) (s : Site) : Plan := g.schema.scan s.kind (tag s)

theorem frame_scanPlan (s : Site) :
    (g.scanPlan tag s).frame g.relations = g.scanFrame tag s := by
  rw [scanPlan, Schema.scan, columns_eq]
  rfl

theorem columns_scanPlan (s : Site) : (g.scanPlan tag s).columns = g.block tag s := by
  rw [scanPlan, Schema.scan, columns_eq]
  rfl

theorem relational_scanPlan (s : Site) : (g.scanPlan tag s).Relational := by
  refine ⟨?_, ?_⟩
  · rw [columns_eq]
    cases s.kind
    · exact List.ne_nil_of_mem g.id_mem
    · exact List.ne_nil_of_mem g.src_mem
  · rw [columns_eq]
    exact g.nodup_names s.kind

theorem supply_scanPlan (s : Site) : g.relations.Supply (g.scanPlan tag s) := by
  intro element tag' columns hscan column hcolumn
  obtain ⟨rfl, -, rfl⟩ := Plan.scan.inj (List.mem_singleton.1 hscan)
  rwa [columns_eq] at hcolumn

/-- A scan denotes the assignments of one element. -/
theorem scanPlan_denotes (s : Site) : g.Denotes p tag (g.scanPlan tag s) [s] fun _ => true where
  relational := relational_scanPlan s
  supply := supply_scanPlan s
  tabulates := by
    rw [frame_scanPlan]
    exact scanFrame_tabulates s

namespace Denotes

theorem supply_append (h : g.Denotes p tag plan sites cond) (s : Site) :
    ∀ element tag' columns, Plan.scan element tag' columns ∈ plan.walk ++ (g.scanPlan tag s).walk →
      ∀ column ∈ columns, column ∈ (g.relations.table element).names := by
  intro element tag' columns hscan
  rcases List.mem_append.1 hscan with hscan | hscan
  · exact h.supply element tag' columns hscan
  · exact supply_scanPlan s element tag' columns hscan

/-- The columns of elements are not those of another one. -/
theorem columns_disjoint (h : g.Denotes p tag plan sites cond) (htag : Tagging tag (sites ++ [s])) :
    ∀ column ∈ plan.columns, column ∉ (g.scanPlan tag s).columns := by
  intro column hleft hright
  rw [← Plan.names_frame (r := g.relations) h.relational] at hleft
  rw [columns_scanPlan] at hright
  obtain ⟨column', -, rfl⟩ := List.mem_map.1 hright
  exact h.tabulates.notMem_names htag column' hleft

theorem congr_tag {tag' : Site → String} (h : g.Denotes p tag plan sites cond)
    (htag : ∀ s ∈ sites, tag s = tag' s) : g.Denotes p tag' plan sites cond where
  relational := h.relational
  supply := h.supply
  tabulates :=
    { h.tabulates with
      names := h.tabulates.names.trans
        (List.flatMap_congr fun s hs => by rw [block, block, htag s hs])
      stored := fun s hs column hcolumn => htag s hs ▸ h.tabulates.stored s hs column hcolumn }

theorem mem_columns (h : g.Denotes p tag plan sites cond) (hs : s ∈ sites) {column : String}
    (hcolumn : column ∈ (g.relations.table s.kind).names) :
    qualified (tag s) column ∈ plan.columns := by
  rw [← Plan.names_frame (r := g.relations) h.relational, h.tabulates.names]
  exact List.mem_flatMap.2 ⟨s, hs, List.mem_map_of_mem hcolumn⟩

/-- Demands on an element of a plan and another one refer to their columns. -/
theorem grounded (h : g.Denotes p tag plan sites cond)
    (hlinks : ∀ k ∈ links, g.Relates p sites [s] k) :
    Plan.Grounded (links.map (Link.equality tag)) plan.columns (g.block tag s) := by
  intro e he
  obtain ⟨k, hk, rfl⟩ := List.mem_map.1 he
  have hrelates := hlinks k hk
  have hmem := hrelates.rightColumn
  refine ⟨h.mem_columns hrelates.left hrelates.leftColumn, ?_⟩
  rw [List.mem_singleton.1 hrelates.right] at hmem
  rw [Link.equality, List.mem_singleton.1 hrelates.right]
  exact List.mem_map_of_mem hmem

/-- Demands between elements of a plan refer to its columns. -/
theorem grounded_self (h : g.Denotes p tag plan sites cond)
    (hlinks : ∀ k ∈ links, g.Relates p sites sites k) :
    Plan.Grounded (links.map (Link.equality tag)) plan.columns plan.columns := by
  intro e he
  obtain ⟨k, hk, rfl⟩ := List.mem_map.1 he
  have hrelates := hlinks k hk
  exact ⟨h.mem_columns hrelates.left hrelates.leftColumn,
    h.mem_columns hrelates.right hrelates.rightColumn⟩

/-! ### Operators -/

theorem join (h : g.Denotes p tag plan sites cond) (htag : Tagging tag (sites ++ [s]))
    (hsteady : g.SteadyKeys p) (hlinks : ∀ k ∈ links, g.Relates p sites [s] k) :
    g.Denotes p tag (.join plan (g.scanPlan tag s) (links.map (Link.equality tag))) (sites ++ [s])
      fun a => cond a && links.all (g.holds a) where
  relational := ⟨h.relational, relational_scanPlan s, h.columns_disjoint htag⟩
  supply element tag' columns hscan := h.supply_append s element tag' columns
    ((List.mem_cons.1 hscan).resolve_left nofun)
  tabulates := by
    rw [Plan.frame, frame_scanPlan]
    exact h.tabulates.join htag hsteady hlinks

theorem filter (h : g.Denotes p tag plan sites cond) (htag : Tagging tag sites)
    (hsteady : g.SteadyKeys p) (hlinks : ∀ k ∈ links, g.Relates p sites sites k) :
    g.Denotes p tag (.filter plan (links.map (Link.equality tag))) sites
      fun a => cond a && links.all (g.holds a) where
  relational := h.relational
  supply element tag' columns hscan := h.supply element tag' columns
    ((List.mem_cons.1 hscan).resolve_left nofun)
  tabulates := h.tabulates.filter htag hsteady hlinks

theorem antiJoin (h : g.Denotes p tag plan sites cond) (htag : Tagging tag (sites ++ [s]))
    (hsteady : g.SteadyKeys p) (hlinks : ∀ k ∈ links, g.Relates p sites [s] k) :
    g.Denotes p tag (.antiJoin plan (g.scanPlan tag s) (links.map (Link.equality tag))) sites
      fun a => cond a && !(g.relations.table s.kind).rows.any fun row =>
        links.all (g.holds (Function.update a s row)) where
  relational := ⟨h.relational, relational_scanPlan s, h.columns_disjoint htag⟩
  supply element tag' columns hscan := h.supply_append s element tag' columns
    ((List.mem_cons.1 hscan).resolve_left nofun)
  tabulates := by
    rw [Plan.frame, frame_scanPlan]
    exact h.tabulates.antiJoin htag hsteady hlinks

end Denotes

/-! ## Frontiers -/

/-- A frontier finds the assignments that meet a condition, for elements of the clauses before a
number. -/
structure Finds (g : Graph) (p : Pattern) (scope : List Binding) (limit : Nat) (f : Frontier)
    (carried : List (Site × Binding)) (cond : Assignment → Bool) : Prop where
  sited : Sited scope limit carried
  carries : f.Carries g.schema scope (carried.map Prod.snd)
  denotes : g.Denotes p (tagOf carried) f.plan (carried.map Prod.fst) cond

namespace Finds

variable {scope scope' : List Binding} {limit limit' clause : Nat} {f : Frontier} {b : Binding}
  {carried : List (Site × Binding)} {equalities : List Equality}

theorem mono (h : g.Finds p scope limit f carried cond) (hscope : Scope scope')
    (hsub : ∀ b ∈ scope, b ∈ scope') (hlimit : limit ≤ limit') :
    g.Finds p scope' limit' f carried cond where
  sited := h.sited.mono hscope hsub hlimit
  carries := h.carries.mono hscope hsub
  denotes := h.denotes

theorem succ (h : g.Finds p scope limit f carried cond) : g.Finds p scope (limit + 1) f carried cond :=
  h.mono h.sited.isScope (fun _ hb => hb) (Nat.le_succ limit)

theorem congr {cond' : Assignment → Bool} (h : g.Finds p scope limit f carried cond)
    (hcond : ∀ a, cond a = cond' a) : g.Finds p scope limit f carried cond' := by
  rwa [← funext hcond]

theorem block_tagOf (hsited : Sited scope limit carried) (hmem : (b.site clause, b) ∈ carried) :
    g.block (tagOf carried) (b.site clause) = g.schema.tagged b := by
  rw [block, hsited.tagOf_eq hmem, b.kind_site, ← columns_eq]
  rfl

theorem scanPlan_tagOf (hsited : Sited scope limit carried) (hmem : (b.site clause, b) ∈ carried) :
    g.scanPlan (tagOf carried) (b.site clause) = g.schema.scan b.kind b.column := by
  rw [scanPlan, hsited.tagOf_eq hmem, b.kind_site]

/-- The scan of the relation of the first element. -/
theorem scan (hsited : Sited scope limit [(b.site clause, b)]) :
    g.Finds p scope limit { plan := g.schema.scan b.kind b.column, bound := [b.column] }
      [(b.site clause, b)] fun _ => true where
  sited := hsited
  carries := .scan hsited.isScope (hsited.subset _ List.mem_cons_self)
  denotes := by
    rw [← scanPlan_tagOf hsited List.mem_cons_self]
    exact scanPlan_denotes (b.site clause)

/-- A join with the relation of one more element. -/
theorem extend (h : g.Finds p scope limit f carried cond) (hsteady : g.SteadyKeys p)
    (hsited : Sited scope limit (carried ++ [(b.site clause, b)]))
    (hlinks : ∀ k ∈ links, g.Relates p (carried.map Prod.fst) [b.site clause] k)
    (heq : equalities =
      links.map (Link.equality (tagOf (carried ++ [(b.site clause, b)])))) :
    g.Finds p scope limit (f.extend (.join f.plan (g.schema.scan b.kind b.column) equalities) b)
      (carried ++ [(b.site clause, b)]) fun a => cond a && links.all (g.holds a) := by
  have hmem : (b.site clause, b) ∈ carried ++ [(b.site clause, b)] := List.mem_concat_self
  have hold : g.Denotes p (tagOf (carried ++ [(b.site clause, b)])) f.plan
      (carried.map Prod.fst) cond := h.denotes.congr_tag fun s hs => by
    obtain ⟨⟨s, b'⟩, hx, rfl⟩ := List.mem_map.1 hs
    rw [h.sited.tagOf_eq hx, hsited.tagOf_eq (List.mem_append_left _ hx)]
  have htagging := hsited.tagging
  rw [List.map_append, List.map_singleton] at htagging
  refine ⟨hsited, ?_, ?_⟩
  · have hgrounded := hold.grounded hlinks
    rw [← heq, block_tagOf hsited hmem] at hgrounded
    rw [List.map_append, List.map_singleton]
    exact h.carries.extend (hsited.subset _ hmem) hgrounded
  · rw [List.map_append, List.map_singleton, heq, ← scanPlan_tagOf hsited hmem]
    exact hold.join htagging hsteady hlinks

/-- A filter on demands between elements that are there. -/
theorem filter (h : g.Finds p scope limit f carried cond) (hsteady : g.SteadyKeys p)
    (hlinks : ∀ k ∈ links, g.Relates p (carried.map Prod.fst) (carried.map Prod.fst) k)
    (heq : equalities = links.map (Link.equality (tagOf carried))) :
    g.Finds p scope limit (f.withPlan (.filter f.plan equalities)) carried
      fun a => cond a && links.all (g.holds a) where
  sited := h.sited
  carries := by
    rw [heq]
    exact h.carries.withPlan rfl
      (Plan.check_filter.2 ⟨h.denotes.grounded_self hlinks, h.carries.check⟩)
  denotes := by
    rw [heq]
    exact h.denotes.filter h.sited.tagging hsteady hlinks

/-- An anti-join with the relation of an element that is not there. -/
theorem antiJoin (h : g.Finds p scope limit f carried cond) (hsteady : g.SteadyKeys p) (index : Nat)
    (hs : s ∉ carried.map Prod.fst)
    (hlinks : ∀ k ∈ links, g.Relates p (carried.map Prod.fst) [s] k)
    (heq : equalities = links.map
      (Link.equality (Function.update (tagOf carried) s (Schema.negatedTag index)))) :
    g.Finds p scope limit
      (f.withPlan (.antiJoin f.plan (g.schema.scan s.kind (Schema.negatedTag index)) equalities))
      carried fun a => cond a && !(g.relations.table s.kind).rows.any fun row =>
        links.all (g.holds (Function.update a s row)) := by
  have htag : ∀ s' ∈ carried.map Prod.fst,
      tagOf carried s' = Function.update (tagOf carried) s (Schema.negatedTag index) s' :=
    fun s' hs' => (Function.update_of_ne (ne_of_mem_of_not_mem hs' hs) ..).symm
  have hold := h.denotes.congr_tag htag
  have hscan : g.schema.scan s.kind (Schema.negatedTag index) =
      g.scanPlan (Function.update (tagOf carried) s (Schema.negatedTag index)) s := by
    rw [scanPlan, Function.update_self]
  rw [hscan, heq]
  refine ⟨h.sited, h.carries.withPlan rfl (Plan.check_antiJoin.2 ⟨?_, h.carries.check, rfl⟩), ?_⟩
  · rw [columns_scanPlan]
    exact hold.grounded hlinks
  · refine Denotes.congr_tag ?_ fun s' hs' => (htag s' hs').symm
    exact hold.antiJoin (h.sited.tagging_negated hs index) hsteady hlinks

end Finds

end Graph

end GraphMotif
