import GraphMotif.Proofs.EraseDups
import GraphMotif.Proofs.Resolution.Renaming
import Mathlib.Data.List.Pairwise

/-!
# One binding for each element

A pattern names its elements in its slots: slots of one name stand for one element, and every empty
slot stands for an element of its own. Resolving gives each element one binding. The bindings are
those of the slots, each where a slot first introduces it, so the number of a binding is its place
among them.
-/

namespace GraphMotif

/-- The slots of a pattern from left to right, each with the kind of element that it stands for. -/
def Pattern.places (p : Pattern) : List (Element × Slot) := p.clauses.flatMap Clause.slots

/-- The names of a pattern from left to right, each as often as it is written. -/
def Pattern.names (p : Pattern) : List String := p.slots.filterMap id

/-- The positive clauses of a pattern. -/
def Pattern.positive (p : Pattern) : Pattern := { clauses := p.clauses.filter (!·.negated) }

/-- The bindings of the slots of a pattern, from left to right. -/
def Resolution.slotBindings (r : Resolution) : List Binding :=
  r.clauses.flatMap ResolvedClause.bindings

/-- What resolving clauses from left to right does. -/
inductive BindClauses : List Binding → List Clause → List ResolvedClause → List Binding → Prop
  | nil {bs : List Binding} : BindClauses bs [] [] bs
  | cons {bs bs₁ bs' : List Binding} {clauses : List Clause} {first : ResolvedClause}
      {rest : List ResolvedClause}
      (hsteps : BindSteps first.negated bs first.clause.slots first.bindings bs₁)
      (hrest : BindClauses bs₁ clauses rest bs') :
      BindClauses bs (first.clause :: clauses) (first :: rest) bs'

variable {bs bs' found : List Binding} {b : Binding} {kind : Element} {slot : Slot}
  {negated : Bool} {slots : List (Element × Slot)} {clauses : List Clause}
  {resolved : List ResolvedClause} {p : Pattern} {r : Resolution}

/-! ## The scope of a run -/

theorem Scope.nodup (h : Scope bs) : bs.Nodup := by
  rw [List.nodup_iff_getElem?_ne_getElem?]
  intro i j hij hj heq
  rw [List.getElem?_eq_getElem hj] at heq
  have hrank := (h.rank i _ heq).symm.trans (h.rank j _ (List.getElem?_eq_getElem hj))
  exact absurd hrank (Nat.ne_of_lt hij)

theorem Scope.eraseDups_eq (h : Scope bs) : bs.eraseDups = bs := eraseDups_of_nodup h.nodup

/-- A scope grows by the binding of a slot unless it holds it. -/
theorem BindStep.scope_eq (hstep : BindStep negated bs kind slot b bs') (h : Scope bs) :
    bs' = (bs ++ [b]).eraseDups := by
  rw [eraseDups_concat, h.eraseDups_eq]
  cases hstep with
  | found _ hb => rw [if_pos hb]
  | introduced => rw [if_neg fun hb => Nat.lt_irrefl _ (h.rank_lt hb)]

namespace BindSteps

theorem scope_eq (hsteps : BindSteps negated bs slots found bs') (h : Scope bs) :
    bs' = (bs ++ found).eraseDups := by
  induction hsteps with
  | nil => rw [List.append_nil, h.eraseDups_eq]
  | cons hstep _ ih =>
    rw [ih (hstep.scope h), hstep.scope_eq h, eraseDups_eraseDups_append, List.append_assoc,
      List.singleton_append]

/-- A negated clause leaves the named bindings as they are. -/
theorem visible_of_negated (hsteps : BindSteps true bs slots found bs') (h : Scope bs) :
    bs'.filter Binding.visible = bs.filter Binding.visible := by
  rw [hsteps.scope_eq h, filter_eraseDups, List.filter_append, eraseDups_append_of_subset,
    ← filter_eraseDups, h.eraseDups_eq]
  intro b hb
  obtain ⟨hfound, hvisible⟩ := List.mem_filter.1 hb
  exact List.mem_filter.2
    ⟨hsteps.mem_of_negated b (hsteps.found_subset b hfound) hvisible, hvisible⟩

/-- An empty slot of a clause has no binding that a slot before it has. -/
theorem pairwise_ne (hsteps : BindSteps negated bs slots found bs') (h : Scope bs) :
    found.Pairwise fun b b' => b'.name = none → b ≠ b' := by
  induction hsteps with
  | nil => exact .nil
  | cons hstep hsteps ih =>
    refine .cons (fun b' hb' hname heq => ?_) (ih (hstep.scope h))
    exact hsteps.notMem_of_nameless (hstep.scope h) b' hb' hname (heq ▸ hstep.spec.1)

end BindSteps

/-! ## The clauses of a pattern -/

theorem resolveClauses_eq_ok_iff (h : Scope bs) :
    Resolution.resolveClauses bs clauses = .ok (resolved, bs') ↔
      BindClauses bs clauses resolved bs' := by
  induction clauses generalizing bs resolved with
  | nil =>
    constructor
    · intro hok
      obtain ⟨rfl, rfl⟩ := Prod.mk.inj (Except.ok.inj hok)
      exact .nil
    · rintro ⟨⟩
      rfl
  | cons c clauses ih =>
    rw [resolveClauses_cons_eq_ok_iff]
    constructor
    · rintro ⟨first, bs₁, rest, hfirst, hrest, rfl⟩
      obtain ⟨rfl, hsteps⟩ := (resolveClause_eq_ok_iff h).1 hfirst
      exact .cons hsteps ((ih (hsteps.scope h)).1 hrest)
    · rintro (_ | ⟨hsteps, hrest⟩)
      exact ⟨_, _, _, (resolveClause_eq_ok_iff h).2 ⟨rfl, hsteps⟩,
        (ih (hsteps.scope h)).2 hrest, rfl⟩

namespace BindClauses

theorem scope (hsteps : BindClauses bs clauses resolved bs') (h : Scope bs) : Scope bs' := by
  induction hsteps with
  | nil => exact h
  | cons hfirst _ ih => exact ih (hfirst.scope h)

/-- The scope holds the bindings of the slots, each where it first occurs. -/
theorem scope_eq (hsteps : BindClauses bs clauses resolved bs') (h : Scope bs) :
    bs' = (bs ++ resolved.flatMap ResolvedClause.bindings).eraseDups := by
  induction hsteps with
  | nil => rw [List.flatMap_nil, List.append_nil, h.eraseDups_eq]
  | cons hfirst _ ih =>
    rw [ih (hfirst.scope h), hfirst.scope_eq h, eraseDups_eraseDups_append, List.append_assoc,
      List.flatMap_cons]

/-- The named bindings in scope are those of the positive clauses. -/
theorem visible_eq (hsteps : BindClauses bs clauses resolved bs') (h : Scope bs) :
    bs'.filter Binding.visible =
      ((bs ++ (resolved.filter (!·.negated)).flatMap ResolvedClause.bindings).filter
        Binding.visible).eraseDups := by
  induction hsteps with
  | nil =>
    rw [List.filter_nil, List.flatMap_nil, List.append_nil, ← filter_eraseDups, h.eraseDups_eq]
  | @cons _ _ _ _ first _ hfirst _ ih =>
    rw [ih (hfirst.scope h)]
    cases hnegated : first.negated with
    | true =>
      rw [hnegated] at hfirst
      rw [List.filter_cons_of_neg (by simp [hnegated]), List.filter_append,
        hfirst.visible_of_negated h, ← List.filter_append]
    | false =>
      rw [List.filter_cons_of_pos (by simp [hnegated]), hfirst.scope_eq h, List.flatMap_cons,
        ← filter_eraseDups, eraseDups_eraseDups_append, filter_eraseDups, List.append_assoc]

/-- The binding of a slot has the kind and the name of the slot. -/
theorem spec (hsteps : BindClauses bs clauses resolved bs') :
    List.Forall₂ (fun slot b => b.kind = slot.1 ∧ b.name = slot.2)
      (clauses.flatMap Clause.slots) (resolved.flatMap ResolvedClause.bindings) := by
  induction hsteps with
  | nil => exact .nil
  | cons hfirst _ ih => exact List.rel_append (hfirst.spec.imp fun _ _ => And.right) ih

theorem notMem_of_nameless (hsteps : BindClauses bs clauses resolved bs') (h : Scope bs) :
    ∀ b ∈ resolved.flatMap ResolvedClause.bindings, b.name = none → b ∉ bs := by
  induction hsteps with
  | nil => exact fun b hb => absurd hb List.not_mem_nil
  | cons hfirst _ ih =>
    intro b hb hname hmem
    rcases List.mem_append.1 hb with hb | hb
    · exact hfirst.notMem_of_nameless h b hb hname hmem
    · exact ih (hfirst.scope h) b hb hname (hfirst.subset b hmem)

/-- An empty slot has no binding that a slot before it has. -/
theorem pairwise_ne (hsteps : BindClauses bs clauses resolved bs') (h : Scope bs) :
    (resolved.flatMap ResolvedClause.bindings).Pairwise fun b b' => b'.name = none → b ≠ b' := by
  induction hsteps with
  | nil => exact .nil
  | cons hfirst hrest ih =>
    refine List.pairwise_append.2 ⟨hfirst.pairwise_ne h, ih (hfirst.scope h), ?_⟩
    intro b hb b' hb' hname heq
    exact hrest.notMem_of_nameless (hfirst.scope h) b' hb' hname
      (heq ▸ hfirst.found_subset b hb)

/-- The binding of an empty slot belongs to one clause. -/
theorem eq_of_nameless (hsteps : BindClauses bs clauses resolved bs') (h : Scope bs)
    {c c' : ResolvedClause} (hc : c ∈ resolved) (hc' : c' ∈ resolved) (hb : b ∈ c.bindings)
    (hb' : b ∈ c'.bindings) (hname : b.name = none) : c = c' := by
  have hpairwise : resolved.Pairwise fun c c' =>
      ∀ b, b ∈ c.bindings → b ∈ c'.bindings → b.name ≠ none :=
    (List.pairwise_flatMap.1 (hsteps.pairwise_ne h)).2.imp
      fun hne b hb hb' hname => hne b hb b hb' hname rfl
  have : Std.Symm fun c c' : ResolvedClause =>
      ∀ b, b ∈ c.bindings → b ∈ c'.bindings → b.name ≠ none :=
    ⟨fun _ _ h b hb hb' => h b hb' hb⟩
  by_contra hne
  exact hpairwise.forall hc hc' hne b hb hb' hname

/-- Slots of one name have one binding, and an empty slot shares its binding with no other slot. -/
theorem shared (hsteps : BindClauses bs clauses resolved bs') (h : Scope bs) :
    (resolved.flatMap ResolvedClause.bindings).Pairwise fun b b' =>
      b = b' ↔ ∃ name, b.name = some name ∧ b'.name = some name := by
  have hmem : ∀ b ∈ resolved.flatMap ResolvedClause.bindings, b ∈ bs' := by
    intro b hb
    rw [hsteps.scope_eq h]
    exact List.mem_eraseDups.2 (List.mem_append_right _ hb)
  refine (hsteps.pairwise_ne h).imp_of_mem fun {b b'} hb hb' hne => ?_
  constructor
  · rintro rfl
    obtain ⟨name, hname⟩ := Option.ne_none_iff_exists'.1 fun hname => hne hname rfl
    exact ⟨name, hname, hname⟩
  · rintro ⟨name, hname, hname'⟩
    exact (hsteps.scope h).name_inj b (hmem b hb) b' (hmem b' hb') name hname hname'

end BindClauses

/-! ## The bindings of a pattern -/

/-- A resolved pattern has one binding for each element of the pattern, told apart by its column,
and shows those that have names. -/
structure Resolution.Represents (r : Resolution) (p : Pattern) : Prop where
  /-- The clauses are those of the pattern. -/
  clauses : r.pattern = p ∧ r.clauses.map ResolvedClause.clause = p.clauses
  /-- The binding of a slot has the kind and the name of the slot. -/
  spec : List.Forall₂ (fun slot b => b.kind = slot.1 ∧ b.name = slot.2) p.places r.slotBindings
  /-- Two slots have one binding when they carry one name, and only then: an empty slot shares its
  binding with no other. -/
  shared : (p.places.zip r.slotBindings).Pairwise fun x y =>
    x.2 = y.2 ↔ ∃ name, x.1.2 = some name ∧ y.1.2 = some name
  /-- The bindings are those of the slots, in the order in which the slots introduce them. -/
  bindings : r.bindings = r.slotBindings.eraseDups
  rank : ∀ (k : Nat) (b : Binding), r.bindings[k]? = some b → b.rank = k
  /-- No two bindings have one column. -/
  columns : (r.bindings.map Binding.column).Nodup
  /-- The column of a binding is made of its kind and its number. -/
  column : ∀ b ∈ r.bindings, b.column = b.kind.letter ++ toString b.rank
  /-- Under other names every slot has the same column. -/
  renamed : ∀ f, p.InjectsNames f → ∃ r', (p.rename f).resolve = .ok r' ∧
    r'.slotBindings.map Binding.column = r.slotBindings.map Binding.column
  /-- The outputs are the bindings that have names. -/
  outputs : r.outputs = (r.slotBindings.filter Binding.visible).eraseDups
  /-- They are shown under the names of the pattern, in the order in which these first occur. -/
  outputNames : r.outputNames = p.names.eraseDups ∧ r.outputNames.Nodup
  /-- Negated clauses contribute no names. -/
  positive : r.outputNames = p.positive.names.eraseDups
  /-- A name is looked up as the binding of every slot that carries it. -/
  lookup : ∀ x ∈ p.places.zip r.slotBindings, ∀ name, x.1.2 = some name → r.binding? name = some x.2
  lookup_none : ∀ name, r.binding? name = none ↔ name ∉ p.names

theorem Pattern.map_snd_places (p : Pattern) : p.places.map Prod.snd = p.slots := List.map_flatMap

theorem Pattern.mem_names_iff {name : String} : name ∈ p.names ↔ some name ∈ p.slots := by
  rw [names, List.mem_filterMap]
  exact ⟨fun ⟨_, hs, heq⟩ => heq ▸ hs, fun hs => ⟨_, hs, rfl⟩⟩

/-- The names of bindings that are shown, one after another. -/
theorem map_outputName_filter (bs : List Binding) :
    (bs.filter Binding.visible).map Binding.outputName = (bs.map (·.name)).filterMap id := by
  induction bs with
  | nil => rfl
  | cons b bs ih =>
    cases hname : b.name with
    | none =>
      rw [List.filter_cons_of_neg (by simp [Binding.visible, hname]), ih, List.map_cons, hname]
      rfl
    | some name =>
      rw [List.filter_cons_of_pos (by simp [Binding.visible, hname]), List.map_cons, ih,
        List.map_cons, hname, Binding.outputName, hname]
      rfl

/-- The bindings of clauses are shown under the names of the clauses. -/
theorem outputNames_of_names {clauses : List ResolvedClause}
    (h : ∀ c ∈ clauses, c.bindings.map (·.name) = c.clause.slots.map Prod.snd) :
    ((clauses.flatMap ResolvedClause.bindings).filter Binding.visible).map Binding.outputName =
      Pattern.names { clauses := clauses.map ResolvedClause.clause } := by
  rw [map_outputName_filter, Pattern.names, Pattern.slots, List.map_flatMap, List.flatMap_map,
    List.flatMap_congr h]

/-- Bindings in scope that are shown under one name are one binding. -/
theorem Scope.outputName_inj (h : Scope bs) :
    ∀ b ∈ bs.filter Binding.visible, ∀ b' ∈ bs.filter Binding.visible,
      b.outputName = b'.outputName → b = b' := by
  intro b hb b' hb' heq
  obtain ⟨hmem, hvisible⟩ := List.mem_filter.1 hb
  obtain ⟨hmem', hvisible'⟩ := List.mem_filter.1 hb'
  obtain ⟨name, hname⟩ := Option.isSome_iff_exists.1 hvisible
  obtain ⟨name', hname'⟩ := Option.isSome_iff_exists.1 hvisible'
  rw [Binding.outputName, Binding.outputName, hname, hname'] at heq
  exact h.name_inj b hmem b' hmem' name hname (hname'.trans (congrArg some heq.symm))

/-- Under other names the bindings of the slots have other names, and else stay as they are. -/
theorem Resolution.slotBindings_rename (f : String → String) (r : Resolution) :
    (r.rename f).slotBindings = r.slotBindings.map (Binding.rename f) := by
  rw [slotBindings, slotBindings, rename, List.flatMap_map, List.map_flatMap]
  exact List.flatMap_congr fun c _ => c.bindings_mapSlots (Option.map f)

namespace Pattern

theorem clauses_of_resolve (hr : p.resolve = .ok r) :
    r.pattern = p ∧ r.clauses.map ResolvedClause.clause = p.clauses := by
  obtain ⟨_, _, hok, -, rfl⟩ := resolve_eq_ok_iff.1 hr
  exact ⟨rfl, map_clause_of_resolveClauses .nil hok⟩

theorem bindClauses_of_resolve (hr : p.resolve = .ok r) :
    BindClauses [] p.clauses r.clauses r.bindings := by
  obtain ⟨_, _, hok, -, rfl⟩ := resolve_eq_ok_iff.1 hr
  exact (resolveClauses_eq_ok_iff .nil).1 hok

theorem outputs_of_resolve (hr : p.resolve = .ok r) :
    r.outputs = r.bindings.filter Binding.visible := by
  obtain ⟨_, _, _, -, rfl⟩ := resolve_eq_ok_iff.1 hr
  rfl

theorem scope_of_resolve (hr : p.resolve = .ok r) : Scope r.bindings :=
  (bindClauses_of_resolve hr).scope .nil

theorem bindings_of_resolve (hr : p.resolve = .ok r) : r.bindings = r.slotBindings.eraseDups :=
  (bindClauses_of_resolve hr).scope_eq .nil

theorem mem_bindings_of_resolve (hr : p.resolve = .ok r) {b : Binding} :
    b ∈ r.bindings ↔ b ∈ r.slotBindings := by
  rw [bindings_of_resolve hr, List.mem_eraseDups]

theorem mem_zip_of_resolve (hr : p.resolve = .ok r) {x : (Element × Slot) × Binding}
    (hx : x ∈ p.places.zip r.slotBindings) :
    x.2 ∈ r.bindings ∧ x.2.kind = x.1.1 ∧ x.2.name = x.1.2 := by
  refine ⟨(mem_bindings_of_resolve hr).2 (List.of_mem_zip hx).2, ?_⟩
  exact (List.forall₂_iff_zip.1 (bindClauses_of_resolve hr).spec).2 hx

theorem shared_of_resolve (hr : p.resolve = .ok r) :
    (p.places.zip r.slotBindings).Pairwise fun x y =>
      x.2 = y.2 ↔ ∃ name, x.1.2 = some name ∧ y.1.2 = some name := by
  have hlength := (bindClauses_of_resolve hr).spec.length_eq
  have hsnd : (p.places.zip r.slotBindings).map Prod.snd = r.slotBindings :=
    List.map_snd_zip (Nat.le_of_eq hlength.symm)
  have hshared := (bindClauses_of_resolve hr).shared .nil
  rw [← Resolution.slotBindings, ← hsnd, List.pairwise_map] at hshared
  refine hshared.imp_of_mem fun {x y} hx hy h => ?_
  rw [h, (mem_zip_of_resolve hr hx).2.2, (mem_zip_of_resolve hr hy).2.2]

/-- What holds of the names of clauses holds of the names that are shown of them. -/
theorem outputNames_of_resolve (hr : p.resolve = .ok r) {clauses : List ResolvedClause}
    (hsub : clauses.Sublist r.clauses)
    (hvisible : r.bindings.filter Binding.visible =
      ((clauses.flatMap ResolvedClause.bindings).filter Binding.visible).eraseDups) :
    r.outputNames = (names { clauses := clauses.map ResolvedClause.clause }).eraseDups := by
  have hinj := (scope_of_resolve hr).outputName_inj
  obtain ⟨_, _, hok, -, rfl⟩ := resolve_eq_ok_iff.1 hr
  rw [← outputNames_of_names fun c hc => names_of_resolveClauses .nil hok c (hsub.subset hc),
    map_eraseDups, ← hvisible]
  · rfl
  · intro b hb b' hb'
    rw [← List.mem_eraseDups, ← hvisible] at hb hb'
    exact hinj b hb b' hb'

theorem mem_names_of_resolve (hr : p.resolve = .ok r) {name : String} :
    name ∈ p.names ↔ ∃ kind, Bound r.bindings kind name := by
  have hspec := (bindClauses_of_resolve hr).spec
  have hslots : r.slotBindings.map (·.name) = p.slots := by
    rw [← map_snd_places]
    exact List.forall₂_eq_eq_eq ▸ List.forall₂_map_left_iff.2
      (List.forall₂_map_right_iff.2 (hspec.flip.imp fun _ _ h => h.2))
  rw [mem_names_iff, ← hslots, List.mem_map]
  constructor
  · rintro ⟨b, hb, hname⟩
    exact ⟨b.kind, b, (mem_bindings_of_resolve hr).2 hb, rfl, hname⟩
  · rintro ⟨_, b, hb, -, hname⟩
    exact ⟨b, (mem_bindings_of_resolve hr).1 hb, hname⟩

/-- Under other names a pattern is resolved to the same columns. -/
theorem columns_rename (hr : p.resolve = .ok r) {f : String → String} (h : p.InjectsNames f) :
    ∃ r', (p.rename f).resolve = .ok r' ∧
      r'.slotBindings.map Binding.column = r.slotBindings.map Binding.column := by
  refine ⟨r.rename f, ?_, ?_⟩
  · rw [rename, resolve_mapSlots hr h.faithful, Resolution.mapSlots_map f hr]
  · rw [Resolution.slotBindings_rename, List.map_map]
    rfl

/-- Resolving a pattern gives one binding for each of its elements. -/
theorem resolve_represents (hr : p.resolve = .ok r) : r.Represents p := by
  have hsteps := bindClauses_of_resolve hr
  have hscope := scope_of_resolve hr
  have hbindings := bindings_of_resolve hr
  have hclauses := clauses_of_resolve hr
  have hvisible : r.bindings.filter Binding.visible =
      (r.slotBindings.filter Binding.visible).eraseDups := by rw [hbindings, filter_eraseDups]
  have hnames : r.outputNames = p.names.eraseDups := by
    have h := outputNames_of_resolve hr (.refl _) hvisible
    rwa [hclauses.2] at h
  refine ⟨hclauses, hsteps.spec, shared_of_resolve hr, hbindings, hscope.rank, ?_, hscope.tagged,
    fun f => columns_rename hr, (outputs_of_resolve hr).trans hvisible,
    ⟨hnames, hnames ▸ nodup_eraseDups _⟩, ?_, ?_, ?_⟩
  · exact hscope.nodup.map_on fun b hb b' hb' => hscope.column_inj hb hb'
  · rw [outputNames_of_resolve hr List.filter_sublist (hsteps.visible_eq .nil), positive,
      ← hclauses.2, List.filter_map]
    rfl
  · intro x hx name hname
    obtain ⟨hmem, -, heq⟩ := mem_zip_of_resolve hr hx
    exact hscope.find?_eq_some hmem (heq.trans hname)
  · intro name
    rw [mem_names_of_resolve hr, not_exists]
    exact Scope.find?_eq_none_iff

/-- Names like those of columns and the empty name, written more than once, beside empty slots. -/
def columnPattern : Pattern where
  clauses :=
    [.edge { src := some "v2", edge := some "", dst := none, negated := false },
     .vertex none,
     .edge { src := none, edge := some "", dst := some "v2", negated := false },
     .edge { src := some "v2", edge := none, dst := none, negated := true }]

/-- Names like those of columns share no binding with the slots that have these columns. -/
theorem resolve_represents_columnPattern :
    ∃ r, columnPattern.resolve = .ok r ∧ r.outputNames = ["v2", ""] ∧
      r.slotBindings.map Binding.column =
        ["v0", "e1", "v2", "v3", "v4", "e1", "v0", "v0", "e5", "v6"] ∧
      r.Represents columnPattern :=
  ⟨_, rfl, by decide +kernel, by decide +kernel, resolve_represents rfl⟩

end Pattern

end GraphMotif
