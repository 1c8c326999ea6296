import GraphMotif.Proofs.EraseDups
import GraphMotif.Proofs.Graph.Sited
import GraphMotif.Proofs.Resolution.Resolve

/-!
# The order of names

Names come into scope in the order in which they first appear in positive clauses, and so in the
order of the elements that the pattern asks for.
-/

namespace GraphMotif

/-- Whether an element has a name. -/
def Site.isNamed : Site → Bool
  | named .. => true
  | nameless .. => false

/-- The elements that clauses ask for. -/
def clauseSites (clauses : List Clause) : List Site :=
  clauses.zipIdx.flatMap fun (c, index) => c.sites index

theorem Pattern.sites_eq (p : Pattern) : p.sites = (clauseSites p.clauses).eraseDups := rfl

theorem Pattern.nodup_sites (p : Pattern) : p.sites.Nodup := nodup_eraseDups _

theorem clauseSites_concat (clauses : List Clause) (c : Clause) :
    clauseSites (clauses ++ [c]) = clauseSites clauses ++ c.sites clauses.length := by
  rw [clauseSites, List.zipIdx_append, List.flatMap_append, Nat.zero_add]
  exact congrArg _ (List.flatMap_singleton ..)

/-- The elements of the visible bindings of a scope. -/
def shownSites (bs : List Binding) : List Site := (bs.filter Binding.visible).map (·.site 0)

/-- The element of the name of a slot. -/
def namedSites (slot : Element × Slot) : List Site := slot.2.toList.map (Site.named slot.1)

theorem shownSites_concat (bs : List Binding) (b : Binding) :
    shownSites (bs ++ [b]) = shownSites bs ++ namedSites (b.kind, b.name) := by
  rw [shownSites, List.filter_append, List.map_append, List.filter_singleton, Binding.visible]
  refine congrArg _ ?_
  cases hname : b.name with
  | none => rw [namedSites, Option.isSome_none, cond_false, Option.toList_none, List.map_nil,
      List.map_nil]
  | some name => rw [namedSites, Option.isSome_some, cond_true, List.map_singleton,
      Binding.site_of_name hname, Option.toList_some, List.map_singleton]

theorem mem_shownSites {bs : List Binding} {kind : Element} {name : String} :
    Site.named kind name ∈ shownSites bs ↔ Bound bs kind name := by
  rw [shownSites, List.mem_map]
  constructor
  · rintro ⟨b, hb, hsite⟩
    obtain ⟨hmem, hvisible⟩ := List.mem_filter.1 hb
    obtain ⟨name', hname⟩ := Option.isSome_iff_exists.1 hvisible
    rw [Binding.site_of_name hname] at hsite
    obtain ⟨hkind, rfl⟩ := Site.named.inj hsite
    exact ⟨b, hmem, hkind, hname⟩
  · rintro ⟨b, hb, rfl, hname⟩
    have hvisible : b.visible = true := by rw [Binding.visible, hname, Option.isSome_some]
    exact ⟨b, List.mem_filter.2 ⟨hb, hvisible⟩, Binding.site_of_name hname⟩

variable {bs bs' found : List Binding} {b : Binding} {kind : Element} {slot : Slot}
  {negated : Bool} {slots : List (Element × Slot)} {sites : List Site}

/-- A slot shows the element of its name, unless it is shown. -/
theorem BindStep.shownSites_eq (hstep : BindStep negated bs kind slot b bs')
    (h : shownSites bs = sites.eraseDups) :
    shownSites bs' = (sites ++ namedSites (kind, slot)).eraseDups := by
  have hmem (name : String) : Site.named kind name ∈ sites ↔ Bound bs kind name := by
    rw [← List.mem_eraseDups, ← h, mem_shownSites]
  cases hstep with
  | found hslot hb hkind hname =>
    rw [hslot, namedSites, Option.toList_some, List.map_singleton, eraseDups_concat,
      if_pos ((hmem _).2 ⟨b, hb, hkind, hname⟩)]
    exact h
  | introduced hslot =>
    rw [shownSites_concat, h, Binding.fresh]
    cases slot with
    | none => rw [namedSites, Option.toList_none, List.map_nil, List.append_nil, List.append_nil]
    | some name =>
      have hnew := mt (hmem name).1 ((hslot name rfl).2 kind)
      rw [namedSites, Option.toList_some, List.map_singleton, eraseDups_concat, if_neg hnew]

namespace BindSteps

theorem shownSites_eq (hsteps : BindSteps negated bs slots found bs')
    (h : shownSites bs = sites.eraseDups) :
    shownSites bs' = (sites ++ slots.flatMap namedSites).eraseDups := by
  induction hsteps generalizing sites with
  | nil =>
    rw [List.flatMap_nil, List.append_nil]
    exact h
  | cons hstep _ ih =>
    rw [List.flatMap_cons, ← List.append_assoc]
    exact ih (hstep.shownSites_eq h)

/-- A negated clause shows nothing. -/
theorem shownSites_eq_of_negated (hsteps : BindSteps true bs slots found bs') :
    shownSites bs' = shownSites bs := by
  induction hsteps with
  | nil => rfl
  | @cons _ _ _ _ _ _ slot _ hstep _ ih =>
    rw [ih]
    cases hstep with
    | found => rfl
    | introduced hslot =>
      cases slot with
      | none => exact (shownSites_concat ..).trans (List.append_nil _)
      | some name => exact absurd (hslot name rfl).1 nofun

end BindSteps

theorem filter_isNamed_site (kind : Element) (slot : Slot) (clause : Nat) :
    [slot.site kind clause].filter Site.isNamed = namedSites (kind, slot) := by
  cases slot <;> rfl

theorem filter_isNamed_map (kind : Element) (slot : Slot) :
    (slot.toList.map (Site.named kind)).filter Site.isNamed = namedSites (kind, slot) := by
  cases slot <;> rfl

/-- The names among the elements that a positive clause asks for. -/
theorem Clause.filter_isNamed_sites {c : Clause} (hpositive : c.negated = false) (index : Nat) :
    (c.sites index).filter Site.isNamed = c.slots.flatMap namedSites := by
  cases c with
  | vertex slot =>
    rw [Clause.sites, filter_isNamed_site]
    exact (List.append_nil _).symm
  | edge e =>
    have hpositive : e.negated = false := hpositive
    rw [Clause.sites, if_neg (Bool.eq_false_iff.1 hpositive), List.filter_append,
      ← List.singleton_append, List.filter_append, filter_isNamed_map, filter_isNamed_site,
      filter_isNamed_map]
    simp only [Clause.slots, List.flatMap_cons, List.flatMap_nil, List.append_nil]

/-- A negated clause asks for no elements. -/
theorem Clause.sites_of_negated {c : Clause} (hnegated : c.negated = true) (index : Nat) :
    c.sites index = [] := by
  cases c with
  | vertex => exact absurd hnegated nofun
  | edge e => exact if_pos hnegated

/-- The name of an element that a clause asks for is one of its names. -/
theorem Clause.mem_names_of_site {c : Clause} {index : Nat} {kind : Element} {name : String}
    (h : Site.named kind name ∈ c.sites index) : name ∈ c.names kind := by
  cases hnegated : c.negated with
  | false =>
    have hmem : Site.named kind name ∈ c.slots.flatMap namedSites := by
      rw [← c.filter_isNamed_sites hnegated index]
      exact List.mem_filter.2 ⟨h, rfl⟩
    obtain ⟨⟨kind', slot⟩, hslot, hnamed⟩ := List.mem_flatMap.1 hmem
    obtain ⟨name', hname', heq⟩ := List.mem_map.1 hnamed
    obtain ⟨rfl, rfl⟩ := Site.named.inj heq
    obtain rfl : slot = some name' := Option.mem_toList.1 hname'
    exact Clause.mem_names_iff.2 hslot
  | true =>
    rw [Clause.sites_of_negated hnegated] at h
    exact absurd h List.not_mem_nil

/-- Where names are well bound, no name is that of a vertex and of an edge. -/
theorem Pattern.WellBound.kind_unique {p : Pattern} (h : p.WellBound) {kind kind' : Element}
    {name : String} (hs : Site.named kind name ∈ p.sites) (hs' : Site.named kind' name ∈ p.sites) :
    kind = kind' := by
  have huse {kind : Element} (hs : Site.named kind name ∈ p.sites) :
      ∃ c ∈ p.clauses, name ∈ c.names kind := by
    rw [p.sites_eq, List.mem_eraseDups] at hs
    obtain ⟨⟨c, index⟩, hc, hs⟩ := List.mem_flatMap.1 hs
    exact ⟨c, List.fst_mem_of_mem_zipIdx hc, Clause.mem_names_of_site hs⟩
  cases kind <;> cases kind'
  · rfl
  · exact absurd (huse hs') (h.one_kind name (huse hs))
  · exact absurd (huse hs) (h.one_kind name (huse hs'))
  · rfl

/-- A clause shows the new names among its elements. -/
theorem BindSteps.shownSites_clause {c : Clause} (hsteps : BindSteps c.negated bs c.slots found bs')
    (h : shownSites bs = (sites.filter Site.isNamed).eraseDups) (index : Nat) :
    shownSites bs' = ((sites ++ c.sites index).filter Site.isNamed).eraseDups := by
  rw [List.filter_append]
  cases hnegated : c.negated with
  | false =>
    rw [c.filter_isNamed_sites hnegated]
    exact hsteps.shownSites_eq h
  | true =>
    rw [hnegated] at hsteps
    rw [Clause.sites_of_negated hnegated, List.filter_nil, List.append_nil, hsteps.shownSites_eq_of_negated]
    exact h

end GraphMotif
