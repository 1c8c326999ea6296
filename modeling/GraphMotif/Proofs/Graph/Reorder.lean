import GraphMotif.Proofs.Graph.Result
import GraphMotif.Proofs.Table.Select

/-!
# Clauses in another order

The clauses of a pattern may be put in another order. The plan is then another one, and so are the
numbers of the elements without names; but the assignments that satisfy all clauses are the same up
to these numbers, and so the result is the same up to the order of its rows and columns.
-/

namespace GraphMotif

/-! ## Numbers of clauses -/

/-- Lists with the same items have them under the same numbers, but for a permutation of the
numbers; it keeps the numbers below the first one. -/
theorem exists_renumbering_zipIdx {α : Type} {xs ys : List α} (h : xs.Perm ys) (first : Nat) :
    ∃ σ : Equiv.Perm ℕ, (∀ i < first, σ i = i) ∧
      ((xs.zipIdx first).map fun x => (x.1, σ x.2)).Perm (ys.zipIdx first) := by
  induction h generalizing first with
  | nil => exact ⟨.refl ℕ, fun _ _ => rfl, .nil⟩
  | @cons x xs ys _ ih =>
    obtain ⟨σ, hfixed, hperm⟩ := ih (first + 1)
    refine ⟨σ, ?_, ?_⟩
    · intro i hi
      exact hfixed i (by omega)
    · have hfirst : σ first = first := hfixed first (by omega)
      rw [List.zipIdx_cons, List.zipIdx_cons, List.map_cons, hfirst]
      exact hperm.cons _
  | swap x y xs =>
    refine ⟨Equiv.swap first (first + 1), ?_, ?_⟩
    · intro i hi
      apply Equiv.swap_apply_of_ne_of_ne <;> omega
    · -- the items after the two keep their numbers
      have hrest : ((xs.zipIdx (first + 1 + 1)).map fun x =>
          (x.1, Equiv.swap first (first + 1) x.2)) = xs.zipIdx (first + 1 + 1) := by
        refine (List.map_congr_left fun x hx => ?_).trans (List.map_id _)
        have hle := List.le_snd_of_mem_zipIdx hx
        refine Prod.ext rfl ?_
        apply Equiv.swap_apply_of_ne_of_ne <;> omega
      rw [List.zipIdx_cons, List.zipIdx_cons, List.zipIdx_cons, List.zipIdx_cons, List.map_cons,
        List.map_cons, hrest, Equiv.swap_apply_left, Equiv.swap_apply_right]
      exact .swap ..
  | trans _ _ ih ih' =>
    obtain ⟨σ, hfixed, hperm⟩ := ih first
    obtain ⟨σ', hfixed', hperm'⟩ := ih' first
    refine ⟨σ.trans σ', ?_, ?_⟩
    · intro i hi
      rw [Equiv.trans_apply, hfixed i hi, hfixed' i hi]
    · have hmap := hperm.map fun x => (x.1, σ' x.2)
      rw [List.map_map] at hmap
      exact hmap.trans hperm'

/-- The element that is called for by the clause with another number. -/
def Site.renumber (σ : Equiv.Perm ℕ) : Site → Site
  | named kind name => named kind name
  | nameless kind clause => nameless kind (σ clause)

section Renumber

variable (σ : Equiv.Perm ℕ)

theorem Site.kind_renumber (s : Site) : (s.renumber σ).kind = s.kind := by
  cases s <;> rfl

theorem Site.renumber_injective : Function.Injective (Site.renumber σ) := by
  intro s s' heq
  cases s with
  | named kind name =>
    cases s' with
    | named => exact heq
    | nameless => exact absurd heq nofun
  | nameless kind clause =>
    cases s' with
    | named => exact absurd heq nofun
    | nameless kind' clause' =>
      obtain ⟨rfl, hclause⟩ := Site.nameless.inj heq
      rw [σ.injective hclause]

theorem Slot.site_renumber (slot : Slot) (kind : Element) (clause : Nat) :
    slot.site kind (σ clause) = (slot.site kind clause).renumber σ := by
  cases slot <;> rfl

theorem Clause.sites_renumber (c : Clause) (index : Nat) :
    c.sites (σ index) = (c.sites index).map (Site.renumber σ) := by
  have hnamed (slot : Slot) : (slot.toList.map (Site.named .vertex)).map (Site.renumber σ) =
      slot.toList.map (Site.named .vertex) := by
    cases slot <;> rfl
  cases c with
  | vertex slot => exact congrArg (fun s => [s]) (slot.site_renumber σ .vertex index)
  | edge e =>
    rw [Clause.sites, Clause.sites]
    split
    · rfl
    · rw [List.map_append, List.map_cons, hnamed, hnamed, Slot.site_renumber]

end Renumber

/-- The clauses of a pattern are those of another one, under other numbers. -/
def Pattern.Renumbers (p q : Pattern) (σ : Equiv.Perm ℕ) : Prop :=
  (p.clauses.zipIdx.map fun x => (x.1, σ x.2)).Perm q.clauses.zipIdx

theorem Pattern.Renumbers.clauses_perm {p q : Pattern} {σ : Equiv.Perm ℕ} (h : p.Renumbers q σ) :
    p.clauses.Perm q.clauses := by
  have hclauses : (p.clauses.zipIdx.map Prod.fst).Perm (q.clauses.zipIdx.map Prod.fst) := by
    have hmap := h.map Prod.fst
    rwa [List.map_map] at hmap
  rwa [List.zipIdx_map_fst, List.zipIdx_map_fst] at hclauses

namespace Graph

variable {g : Graph} {p q : Pattern} {σ : Equiv.Perm ℕ} {a : Assignment} {plan plan' : MatchPlan}

/-! ## Assignments under other numbers -/

/-- An assignment for the elements under their other numbers is one for the elements. -/
theorem assignments_renumber (σ : Equiv.Perm ℕ) (sites : List Site) :
    (g.assignments (sites.map (Site.renumber σ))).map (· ∘ Site.renumber σ) =
      g.assignments sites := by
  induction sites using List.reverseRecOn with
  | nil => rfl
  | append_singleton sites s ih =>
    rw [List.map_append, List.map_singleton, assignments_concat, assignments_concat, ← ih,
      List.map_flatMap, List.flatMap_map]
    refine List.flatMap_congr fun a _ => ?_
    rw [List.map_map, Site.kind_renumber]
    refine List.map_congr_left fun row _ => ?_
    exact Function.update_comp_eq_of_injective a (Site.renumber_injective σ) s row

/-- A clause with another number says of an assignment what it says under its number. -/
theorem satisfies_renumber (σ : Equiv.Perm ℕ) (a : Assignment) (index : Nat) (c : Clause) :
    g.satisfies a (σ index) c = g.satisfies (a ∘ Site.renumber σ) index c := by
  cases c with
  | vertex => rfl
  | edge e =>
    rw [satisfies, satisfies, Slot.site_renumber]
    rfl

section Renumbers

variable (h : p.Renumbers q σ)

include h

/-- The other pattern asks for the same elements under other numbers. -/
theorem sites_perm : (p.sites.map (Site.renumber σ)).Perm q.sites := by
  have hnodup : (p.sites.map (Site.renumber σ)).Nodup :=
    p.nodup_sites.map (Site.renumber_injective σ)
  have hsites : ((clauseSites p.clauses).map (Site.renumber σ)).Perm (clauseSites q.clauses) := by
    have hflat := h.flatMap_right fun x => x.1.sites x.2
    rw [List.flatMap_map] at hflat
    rw [clauseSites, List.map_flatMap]
    refine .trans (.of_eq ?_) hflat
    exact List.flatMap_congr fun x _ => (Clause.sites_renumber σ x.1 x.2).symm
  refine (List.perm_ext_iff_of_nodup hnodup q.nodup_sites).2 fun s => ?_
  rw [q.sites_eq, List.mem_eraseDups, ← hsites.mem_iff, List.mem_map, List.mem_map]
  refine exists_congr fun s' => and_congr_left fun _ => ?_
  rw [p.sites_eq, List.mem_eraseDups]

theorem satisfiesAll_renumber (a : Assignment) :
    g.satisfiesAll q.clauses a = g.satisfiesAll p.clauses (a ∘ Site.renumber σ) := by
  rw [satisfiesAll, ← h.all_eq, List.all_map, satisfiesAll]
  exact all_congr_of_mem fun x _ => satisfies_renumber σ a x.2 x.1

end Renumbers

/-! ## Results -/

/-- The assignments that the result of a pattern shows. -/
def matchings (g : Graph) (p : Pattern) : List Assignment :=
  if p.isEmpty then [] else (g.assignments p.sites).filter (g.satisfiesAll p.clauses)

theorem occurrences_eq (g : Graph) (p : Pattern) :
    g.occurrences p = (g.matchings p).map fun a => p.sites.flatMap (Site.shownRow a) := by
  rw [occurrences, matchings]
  split <;> rfl

/-- The kind of the element that a name stands for. -/
def namedKind (sites : List Site) (name : String) : Element :=
  if Site.named .vertex name ∈ sites then .vertex else .edge

/-- The cell that an assignment shows under a label of the result. -/
def labelCell (g : Graph) (sites : List Site) (a : Assignment) : Label → Value
  | .bundled name column =>
    (g.relations.table (namedKind sites name)).cellAt (a (.named (namedKind sites name) name)) column
  | .plain _ => .null

theorem namedKind_eq (hbound : p.WellBound) {kind : Element} {name : String}
    (hs : Site.named kind name ∈ p.sites) : namedKind p.sites name = kind := by
  by_cases hvertex : Site.named .vertex name ∈ p.sites
  · rw [namedKind, if_pos hvertex]
    exact hbound.kind_unique hvertex hs
  · rw [namedKind, if_neg hvertex]
    cases kind with
    | vertex => exact absurd hs hvertex
    | edge => rfl

/-- The rows that are shown have their cells under the labels of the result. -/
theorem occurrences_eq_labelCell (hbound : p.WellBound) :
    g.occurrences p = (g.matchings p).map fun a => (g.resultLabels p).map (g.labelCell p.sites a) := by
  rw [occurrences_eq]
  apply List.map_congr_left
  intro a ha
  rw [resultLabels, List.map_flatMap]
  apply List.flatMap_congr
  intro s hs
  have hmem : a ∈ g.assignments p.sites := by
    rw [matchings] at ha
    split at ha
    · exact absurd ha List.not_mem_nil
    · exact (List.mem_filter.1 ha).1
  cases s with
  | nameless => rfl
  | named kind name =>
    have hrow := g.mem_rows_of_mem_assignments hmem _ hs
    rw [shownLabels, List.map_map, columns_eq]
    rw [Site.shownRow, ← Table.map_cellAt_names (g.nodup_names kind) hrow]
    apply List.map_congr_left
    intro column _
    rw [Function.comp_apply, labelCell, namedKind_eq hbound hs]

section Renumbers

variable (h : p.Renumbers q σ)

include h

theorem named_mem_sites_iff {kind : Element} {name : String} :
    Site.named kind name ∈ q.sites ↔ Site.named kind name ∈ p.sites := by
  rw [← (sites_perm h).mem_iff]
  exact List.mem_map_of_injective (Site.renumber_injective σ) (a := Site.named kind name)

theorem resultLabels_perm : (g.resultLabels q).Perm (g.resultLabels p) := by
  refine ((sites_perm h).symm.flatMap_right g.shownLabels).trans (.of_eq ?_)
  rw [List.flatMap_map]
  exact List.flatMap_congr fun s _ => by cases s <;> rfl

theorem matchings_perm : ((g.matchings q).map (· ∘ Site.renumber σ)).Perm (g.matchings p) := by
  have hempty : q.isEmpty = p.isEmpty := h.clauses_perm.isEmpty_eq.symm
  rw [matchings, matchings, hempty]
  split
  · rfl
  · have hcond : g.satisfiesAll q.clauses = g.satisfiesAll p.clauses ∘ (· ∘ Site.renumber σ) :=
      funext (satisfiesAll_renumber h)
    rw [hcond, ← List.filter_map, ← assignments_renumber σ p.sites]
    exact ((g.assignments_perm (sites_perm h).symm).map _).filter _

theorem labelCell_renumber (a : Assignment) :
    g.labelCell q.sites a = g.labelCell p.sites (a ∘ Site.renumber σ) := by
  funext label
  cases label with
  | plain => rfl
  | bundled name column =>
    have hkind : namedKind q.sites name = namedKind p.sites name :=
      if_congr (named_mem_sites_iff h) rfl rfl
    rw [labelCell, hkind]
    rfl

end Renumbers

/-- The ends that clauses name do not depend on their order. -/
theorem SteadyKeys.of_perm (hsteady : g.SteadyKeys p) (hperm : p.clauses.Perm q.clauses) :
    g.SteadyKeys q := by
  have hends : ∀ name side, (name, side) ∈ q.namedEnds → (name, side) ∈ p.namedEnds :=
    fun _ _ hend => (hperm.flatMap_right Clause.namedEnds).mem_iff.2 hend
  intro name
  rcases hsteady name with hkinds | hsame
  · exact .inl fun side hend => hkinds side (hends name side hend)
  · exact .inr fun side hend => hsame side (hends name side hend)

/-- Finding a pattern shows its assignments under the labels of the result. -/
theorem find_labelCell (hplan : g.compile p = .ok plan) (hsteady : g.SteadyKeys p) :
    (∃ a b, g.find p = .error (.eval (.incomparableKeys a b))) ∨
      ∃ t, g.find p = .ok t ∧ t.names = g.resultLabels p ∧
        t.rows.Perm ((g.matchings p).map fun a => t.names.map (g.labelCell p.sites a)) := by
  obtain ⟨hrelational, hsupply, hcheck, hlabels, hresult⟩ := compile_spec hplan hsteady
  refine (find_eq_resultRows hplan hrelational hsupply hcheck).imp And.right ?_
  rintro ⟨-, t, hfind, hnames, hrows⟩
  have hnames := hnames.trans hlabels
  refine ⟨t, hfind, hnames, ?_⟩
  rw [hrows, hnames, ← occurrences_eq_labelCell (Schema.wellBound_of_compilePattern hplan)]
  exact hresult

/-- The order of the clauses does not matter for what is found: the results of a pattern and of its
clauses in another order have the same columns, and under these the same rows. Either search may
stop for keys that cannot be compared. -/
theorem find_perm (hperm : p.clauses.Perm q.clauses) (hplan : g.compile p = .ok plan)
    (hplan' : g.compile q = .ok plan') (hsteady : g.SteadyKeys p) :
    (∃ a b, g.find p = .error (.eval (.incomparableKeys a b))) ∨
      (∃ a b, g.find q = .error (.eval (.incomparableKeys a b))) ∨
        ∃ t t', g.find p = .ok t ∧ g.find q = .ok t' ∧ t'.names.Perm t.names ∧
          (t'.select t.names).rows.Perm t.rows := by
  rcases find_labelCell hplan hsteady with herror | ⟨t, hfind, hnames, hrows⟩
  · exact .inl herror
  rcases find_labelCell hplan' (hsteady.of_perm hperm) with herror | ⟨t', hfind', hnames', hrows'⟩
  · exact .inr (.inl herror)
  obtain ⟨σ, -, h⟩ := exists_renumbering_zipIdx hperm 0
  have hlabels : t'.names.Perm t.names := by
    rw [hnames, hnames']
    exact resultLabels_perm h
  -- under a label the two patterns show the same cell, whatever the numbers of the clauses are
  have hsame : ((g.matchings q).map fun a => t'.names.map (g.labelCell q.sites a)) =
      ((g.matchings q).map (· ∘ Site.renumber σ)).map fun a =>
        t'.names.map (g.labelCell p.sites a) := by
    rw [List.map_map]
    exact List.map_congr_left fun a _ => congrArg (t'.names.map ·) (labelCell_renumber h a)
  rw [hsame] at hrows'
  have hselected := Table.rows_select_perm (hrows'.trans ((matchings_perm h).map _))
    fun label hlabel => hlabels.mem_iff.2 hlabel
  exact .inr (.inr ⟨t, t', hfind, hfind', hlabels, hselected.trans hrows.symm⟩)

/-! ## Two orders -/

/-- The pattern of a vertex, an edge that starts at it, and an edge that ends at it. -/
def startEndPattern : Pattern := { clauses := [.vertex (some "a"), startClause, endClause] }

/-- The same, the edge that ends at the vertex first. -/
def endStartPattern : Pattern := { clauses := [.vertex (some "a"), endClause, startClause] }

/-- The plan of a vertex and two edges, given with the columns that identify it as their end. -/
def visitPlan (first second : String × String) (pattern : String) : MatchPlan where
  child := .join
    (.join (.scan .vertex "v0" [idColumn]) (.scan .edge first.1 [srcColumn, dstColumn])
      [{ left := qualified "v0" idColumn, right := qualified first.1 first.2 }])
    (.scan .edge second.1 [srcColumn, dstColumn])
    [{ left := qualified "v0" idColumn, right := qualified second.1 second.2 }]
  outputs := [{ name := "a", attributes := [idColumn], columns := [qualified "v0" idColumn] }]
  pattern

theorem compile_startEndPattern : roundedGraph.compile startEndPattern =
    .ok (visitPlan ("e1", srcColumn) ("e4", dstColumn) "(a); (a)-[]->(); ()-[]->(a)") := by
  decide +kernel

theorem compile_endStartPattern : roundedGraph.compile endStartPattern =
    .ok (visitPlan ("e2", dstColumn) ("e3", srcColumn) "(a); ()-[]->(a); (a)-[]->()") := by
  decide +kernel

theorem startEndPattern_perm : startEndPattern.clauses.Perm endStartPattern.clauses :=
  .cons _ (.swap ..)

/-- Where identities are rounded at both ends, the order of the two edges does not matter. -/
theorem find_perm_roundedGraph :
    startEndPattern.clauses.Perm endStartPattern.clauses ∧
      (∃ plan, roundedGraph.compile startEndPattern = .ok plan) ∧
      (∃ plan, roundedGraph.compile endStartPattern = .ok plan) ∧
      roundedGraph.SteadyKeys startEndPattern ∧
        ((∃ a b, roundedGraph.find startEndPattern = .error (.eval (.incomparableKeys a b))) ∨
          (∃ a b, roundedGraph.find endStartPattern = .error (.eval (.incomparableKeys a b))) ∨
            ∃ t t', roundedGraph.find startEndPattern = .ok t ∧
              roundedGraph.find endStartPattern = .ok t' ∧ t'.names.Perm t.names ∧
                (t'.select t.names).rows.Perm t.rows) :=
  ⟨startEndPattern_perm, ⟨_, compile_startEndPattern⟩, ⟨_, compile_endStartPattern⟩,
    steadyKeys_roundedGraph startEndPattern,
    find_perm startEndPattern_perm compile_startEndPattern compile_endStartPattern
      (steadyKeys_roundedGraph startEndPattern)⟩

/-- Where an identity is rounded at the one end only, the order of the two edges matters: a match is
found if the edge that ends in the mixed column comes last. -/
theorem foundRows_ne_of_perm :
    startEndPattern.clauses.Perm endStartPattern.clauses ∧
      foundRows retypedGraph startEndPattern.clauses = some 1 ∧
        foundRows retypedGraph endStartPattern.clauses = some 0 := by
  refine ⟨startEndPattern_perm, ?_⟩
  decide +kernel

end Graph

end GraphMotif
