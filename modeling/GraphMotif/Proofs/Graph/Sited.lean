import GraphMotif.Proofs.Graph.Tabulate
import GraphMotif.Proofs.Plan.Frontier

/-!
# Elements and their bindings

A plan scans the relation of an element under the column of its binding. While clauses are added,
the elements found so far stand beside their bindings: a name has one binding, a nameless element
has the fresh one of its clause, and so no two elements have one tag.
-/

namespace GraphMotif

/-- The element that a binding stands for in the clause with a number. -/
def Binding.site (b : Binding) (clause : Nat) : Site := b.name.site b.kind clause

namespace Binding

variable {b : Binding} {name : String} {clause : Nat}

theorem site_of_name (hname : b.name = some name) : b.site clause = .named b.kind name := by
  rw [site, hname]
  rfl

theorem site_of_nameless (hname : b.name = none) : b.site clause = .nameless b.kind clause := by
  rw [site, hname]
  rfl

theorem kind_site (b : Binding) (clause : Nat) : (b.site clause).kind = b.kind := by
  cases hname : b.name with
  | some name => rw [site_of_name hname, Site.kind]
  | none => rw [site_of_nameless hname, Site.kind]

end Binding

/-- The tag of an element: the column of its binding. -/
def tagOf (carried : List (Site × Binding)) (s : Site) : String :=
  ((carried.find? (·.1 = s)).map (·.2.column)).getD ""

/-- Elements of clauses before a number, each with its binding in a scope, none of them twice. -/
structure Sited (scope : List Binding) (limit : Nat) (carried : List (Site × Binding)) : Prop where
  isScope : Scope scope
  subset : ∀ x ∈ carried, x.2 ∈ scope
  site_eq : ∀ x ∈ carried, ∃ clause < limit, x.1 = x.2.site clause
  nodup_sites : (carried.map Prod.fst).Nodup
  nodup_bindings : (carried.map Prod.snd).Nodup

namespace Sited

variable {scope scope' : List Binding} {limit limit' clause : Nat}
  {carried : List (Site × Binding)} {b : Binding} {s : Site} {name : String} {kind : Element}

theorem mono (h : Sited scope limit carried) (hscope : Scope scope') (hsub : ∀ b ∈ scope, b ∈ scope')
    (hlimit : limit ≤ limit') : Sited scope' limit' carried where
  isScope := hscope
  subset x hx := hsub x.2 (h.subset x hx)
  site_eq x hx :=
    let ⟨clause, hclause, heq⟩ := h.site_eq x hx
    ⟨clause, Nat.lt_of_lt_of_le hclause hlimit, heq⟩
  nodup_sites := h.nodup_sites
  nodup_bindings := h.nodup_bindings

/-- One more element, with a binding that is not there. -/
theorem concat (h : Sited scope limit carried) (hb : b ∈ scope) (hclause : clause < limit)
    (hsite : b.site clause ∉ carried.map Prod.fst) (hbinding : b ∉ carried.map Prod.snd) :
    Sited scope limit (carried ++ [(b.site clause, b)]) where
  isScope := h.isScope
  subset := List.forall_mem_append.2 ⟨h.subset, List.forall_mem_singleton.2 hb⟩
  site_eq := List.forall_mem_append.2
    ⟨h.site_eq, List.forall_mem_singleton.2 ⟨clause, hclause, rfl⟩⟩
  nodup_sites := by
    rw [List.map_append, List.map_singleton, ← List.concat_eq_append]
    exact h.nodup_sites.concat hsite
  nodup_bindings := by
    rw [List.map_append, List.map_singleton, ← List.concat_eq_append]
    exact h.nodup_bindings.concat hbinding

/-! ## Tags -/

theorem tagOf_eq (h : Sited scope limit carried) (hmem : (s, b) ∈ carried) :
    tagOf carried s = b.column := by
  have hfind : carried.find? (·.1 = s) = some (s, b) :=
    find?_eq_some_of_unique hmem (decide_eq_true rfl) fun x hx hsite =>
      List.inj_on_of_nodup_map h.nodup_sites hx hmem (of_decide_eq_true hsite)
  rw [tagOf, hfind]
  rfl

/-- Elements have tags that tell them apart. -/
theorem tagging (h : Sited scope limit carried) :
    Tagging (tagOf carried) (carried.map Prod.fst) where
  nodup := h.nodup_sites
  isTag s hs := by
    obtain ⟨⟨s, b⟩, hmem, rfl⟩ := List.mem_map.1 hs
    rw [h.tagOf_eq hmem, h.isScope.tagged b (h.subset _ hmem)]
    exact Element.isTag_letter_append b.kind b.rank
  inj s hs s' hs' heq := by
    obtain ⟨⟨s, b⟩, hmem, rfl⟩ := List.mem_map.1 hs
    obtain ⟨⟨s', b'⟩, hmem', rfl⟩ := List.mem_map.1 hs'
    rw [h.tagOf_eq hmem, h.tagOf_eq hmem'] at heq
    obtain rfl := h.isScope.column_inj (h.subset _ hmem) (h.subset _ hmem') heq
    exact congrArg Prod.fst (List.inj_on_of_nodup_map h.nodup_bindings hmem hmem' rfl)

/-- Another element beside those that are there, under the tag of a negated clause. -/
theorem tagging_negated (h : Sited scope limit carried) (hs : s ∉ carried.map Prod.fst)
    (index : Nat) :
    Tagging (Function.update (tagOf carried) s (Schema.negatedTag index))
      (carried.map Prod.fst ++ [s]) := by
  -- the letter of a negated clause is that of no kind of element
  have hne {s' : Site} (hs' : s' ∈ carried.map Prod.fst) :
      tagOf carried s' ≠ Schema.negatedTag index := by
    obtain ⟨⟨s', b⟩, hmem, rfl⟩ := List.mem_map.1 hs'
    rw [h.tagOf_eq hmem, h.isScope.tagged b (h.subset _ hmem), Schema.negatedTag]
    intro heq
    have hn : "n".toList = ['n'] := rfl
    cases hkind : b.kind with
    | vertex =>
      have hv : Element.vertex.letter.toList = ['v'] := rfl
      rw [hkind] at heq
      exact absurd ((letter_append_toString_inj hv hn).1 heq).1 (by decide)
    | edge =>
      have he : Element.edge.letter.toList = ['e'] := rfl
      rw [hkind] at heq
      exact absurd ((letter_append_toString_inj he hn).1 heq).1 (by decide)
  have hold {s' : Site} (hs' : s' ∈ carried.map Prod.fst) :
      Function.update (tagOf carried) s (Schema.negatedTag index) s' = tagOf carried s' :=
    Function.update_of_ne (ne_of_mem_of_not_mem hs' hs) ..
  refine ⟨?_, fun s' hs' => ?_, fun s₁ hs₁ s₂ hs₂ heq => ?_⟩
  · rw [← List.concat_eq_append]
    exact h.nodup_sites.concat hs
  · rcases List.mem_append.1 hs' with hs' | hs'
    · rw [hold hs']
      exact h.tagging.isTag s' hs'
    · rw [List.mem_singleton.1 hs', Function.update_self]
      exact isTag_append_toString (by decide) index
  · rcases List.mem_append.1 hs₁ with hs₁ | hs₁ <;> rcases List.mem_append.1 hs₂ with hs₂ | hs₂
    · rw [hold hs₁, hold hs₂] at heq
      exact h.tagging.inj s₁ hs₁ s₂ hs₂ heq
    · rw [hold hs₁, List.mem_singleton.1 hs₂, Function.update_self] at heq
      exact absurd heq (hne hs₁)
    · rw [hold hs₂, List.mem_singleton.1 hs₁, Function.update_self] at heq
      exact absurd heq.symm (hne hs₂)
    · rw [List.mem_singleton.1 hs₁, List.mem_singleton.1 hs₂]

/-! ## Elements of a clause -/

/-- A nameless element belongs to an earlier clause. -/
theorem lt_of_nameless (h : Sited scope limit carried)
    (hs : Site.nameless kind clause ∈ carried.map Prod.fst) : clause < limit := by
  obtain ⟨⟨s, b⟩, hmem, heq⟩ := List.mem_map.1 hs
  obtain ⟨clause', hlt, hsite⟩ := h.site_eq _ hmem
  have hsite : Site.nameless kind clause = b.site clause' := heq.symm.trans hsite
  cases hname : b.name with
  | some name =>
    rw [Binding.site_of_name hname] at hsite
    exact absurd hsite nofun
  | none =>
    rw [Binding.site_of_nameless hname] at hsite
    rwa [(Site.nameless.inj hsite).2]

/-- The element of a name has the binding of the name. -/
theorem mem_of_named (h : Sited scope limit carried) (hb : b ∈ scope) (hname : b.name = some name)
    (hs : Site.named kind name ∈ carried.map Prod.fst) : (Site.named kind name, b) ∈ carried := by
  obtain ⟨⟨s, b'⟩, hmem, heq⟩ := List.mem_map.1 hs
  obtain ⟨clause, -, hsite⟩ := h.site_eq _ hmem
  obtain rfl : s = Site.named kind name := heq
  have hsite : Site.named kind name = b'.site clause := hsite
  cases hname' : b'.name with
  | none =>
    rw [Binding.site_of_nameless hname'] at hsite
    exact absurd hsite nofun
  | some name' =>
    rw [Binding.site_of_name hname'] at hsite
    obtain ⟨-, rfl⟩ := Site.named.inj hsite
    rwa [h.isScope.name_inj b hb b' (h.subset _ hmem) name hname hname']

/-- The binding of a name stands beside the element of the name. -/
theorem mem_of_binding (h : Sited scope limit carried) (hname : b.name = some name)
    (hb : b ∈ carried.map Prod.snd) : (Site.named b.kind name, b) ∈ carried := by
  obtain ⟨⟨s, b'⟩, hmem, heq⟩ := List.mem_map.1 hb
  obtain ⟨clause, -, hsite⟩ := h.site_eq _ hmem
  obtain rfl : b' = b := heq
  have hsite : s = b'.site clause := hsite
  rwa [hsite, Binding.site_of_name hname] at hmem

theorem named_mem_iff (h : Sited scope limit carried) (hb : b ∈ scope) (hname : b.name = some name) :
    Site.named b.kind name ∈ carried.map Prod.fst ↔ b ∈ carried.map Prod.snd :=
  ⟨fun hs => List.mem_map_of_mem (f := Prod.snd) (h.mem_of_named hb hname hs),
    fun hb => List.mem_map_of_mem (f := Prod.fst) (h.mem_of_binding hname hb)⟩

/-- The binding of a slot in the next clause is there exactly if its element is. -/
theorem site_mem_iff (h : Sited scope limit carried) (hb : b ∈ scope)
    (hfresh : b.name = none → b ∉ carried.map Prod.snd) :
    b.site limit ∈ carried.map Prod.fst ↔ b ∈ carried.map Prod.snd := by
  cases hname : b.name with
  | some name =>
    rw [Binding.site_of_name hname]
    exact h.named_mem_iff hb hname
  | none =>
    rw [Binding.site_of_nameless hname]
    exact iff_of_false (fun hs => Nat.lt_irrefl _ (h.lt_of_nameless hs)) (hfresh hname)

theorem mem_of_site (h : Sited scope limit carried) (hb : b ∈ scope)
    (hs : b.site limit ∈ carried.map Prod.fst) : (b.site limit, b) ∈ carried := by
  cases hname : b.name with
  | some name =>
    rw [Binding.site_of_name hname] at hs ⊢
    exact h.mem_of_named hb hname hs
  | none =>
    rw [Binding.site_of_nameless hname] at hs
    exact absurd (h.lt_of_nameless hs) (Nat.lt_irrefl _)

end Sited

end GraphMotif
