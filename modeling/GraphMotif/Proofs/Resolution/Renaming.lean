import GraphMotif.Proofs.Resolution.Resolve
import Mathlib.Data.Set.Function

/-!
# Other names in a pattern

The names of a pattern may be exchanged for others, and names that occur once may be erased. As long
as different names stay different, the slots are resolved to the same bindings under the other
names: the columns of bindings are made of their numbers, so that no name can clash with them.
-/

namespace GraphMotif

/-! ## Patterns under other names -/

section MapSlots

variable (φ : Slot → Slot)

/-- The clause with other slots. -/
def EdgeClause.mapSlots (e : EdgeClause) : EdgeClause :=
  { e with src := φ e.src, edge := φ e.edge, dst := φ e.dst }

/-- The clause with other slots. -/
def Clause.mapSlots : Clause → Clause
  | .vertex name => .vertex (φ name)
  | .edge e => .edge (e.mapSlots φ)

/-- The pattern with other slots. -/
def Pattern.mapSlots (p : Pattern) : Pattern := { clauses := p.clauses.map (Clause.mapSlots φ) }

/-- The binding under another name, or under none. -/
def Binding.mapName (b : Binding) : Binding := { b with name := φ b.name }

/-- The resolved clause with other slots. -/
def ResolvedClause.mapSlots : ResolvedClause → ResolvedClause
  | .vertex name v => .vertex (φ name) (v.mapName φ)
  | .edge e src e' dst => .edge (e.mapSlots φ) (src.mapName φ) (e'.mapName φ) (dst.mapName φ)

/-- The resolved pattern with other slots; bindings whose names are erased are no longer shown. -/
def Resolution.mapSlots (r : Resolution) : Resolution where
  pattern := r.pattern.mapSlots φ
  clauses := r.clauses.map (ResolvedClause.mapSlots φ)
  bindings := r.bindings.map (Binding.mapName φ)
  outputs := (r.outputs.map (Binding.mapName φ)).filter Binding.visible

end MapSlots

/-- The slots of a pattern from left to right. -/
def Pattern.slots (p : Pattern) : List Slot :=
  p.clauses.flatMap fun c => c.slots.map Prod.snd

/-- Slots are exchanged so that empty ones stay empty, different names stay different, and a name
that is erased occurs once. -/
structure Faithful (φ : Slot → Slot) (slots : List Slot) : Prop where
  map_none : φ none = none
  inj : ∀ s ∈ slots, ∀ s' ∈ slots, φ s = φ s' → φ s ≠ none → s = s'
  once : slots.Pairwise fun s s' => s = s' → s ≠ none → φ s ≠ none

variable {φ : Slot → Slot} {slots slots' : List Slot} {bs bs' found : List Binding} {b : Binding}
  {kind : Element} {slot : Slot} {negated : Bool} {c : Clause}

theorem Faithful.sublist (h : Faithful φ slots) (hsub : slots'.Sublist slots) :
    Faithful φ slots' where
  map_none := h.map_none
  inj s hs s' hs' := h.inj s (hsub.subset hs) s' (hsub.subset hs')
  once := h.once.sublist hsub

theorem Clause.negated_mapSlots (φ : Slot → Slot) (c : Clause) :
    (c.mapSlots φ).negated = c.negated := by
  cases c <;> rfl

theorem Clause.slots_mapSlots (φ : Slot → Slot) (c : Clause) :
    (c.mapSlots φ).slots = c.slots.map fun (kind, slot) => (kind, φ slot) := by
  cases c <;> rfl

theorem ResolvedClause.clause_mapSlots (φ : Slot → Slot) (c : ResolvedClause) :
    (c.mapSlots φ).clause = c.clause.mapSlots φ := by
  cases c <;> rfl

theorem ResolvedClause.bindings_mapSlots (φ : Slot → Slot) (c : ResolvedClause) :
    (c.mapSlots φ).bindings = c.bindings.map (Binding.mapName φ) := by
  cases c <;> rfl

theorem Clause.mapSlots_mapSlots (φ ψ : Slot → Slot) (c : Clause) :
    (c.mapSlots φ).mapSlots ψ = c.mapSlots (ψ ∘ φ) := by
  cases c <;> rfl

theorem Clause.mapSlots_eq_self (h : ∀ s ∈ c.slots.map Prod.snd, φ s = s) : c.mapSlots φ = c := by
  cases c with
  | vertex name => exact congrArg Clause.vertex (h name List.mem_cons_self)
  | edge e =>
    obtain ⟨src, edge, dst, negated⟩ := e
    simp only [slots, List.map_cons, List.map_nil, List.forall_mem_cons] at h
    obtain ⟨hsrc, hedge, hdst, -⟩ := h
    simp only [mapSlots, EdgeClause.mapSlots, hsrc, hedge, hdst]

namespace Pattern

theorem isEmpty_mapSlots (φ : Slot → Slot) (p : Pattern) : (p.mapSlots φ).isEmpty = p.isEmpty :=
  List.isEmpty_map

theorem slots_mapSlots (φ : Slot → Slot) (p : Pattern) : (p.mapSlots φ).slots = p.slots.map φ := by
  rw [slots, slots, mapSlots, List.flatMap_map, List.map_flatMap]
  refine List.flatMap_congr fun c _ => ?_
  rw [Clause.slots_mapSlots, List.map_map, List.map_map]
  rfl

/-- Slots that are exchanged back and forth. -/
theorem mapSlots_mapSlots_eq_self {ψ : Slot → Slot} {p : Pattern}
    (h : ∀ s ∈ p.slots, ψ (φ s) = s) : (p.mapSlots φ).mapSlots ψ = p := by
  obtain ⟨clauses⟩ := p
  refine congrArg Pattern.mk ?_
  rw [mapSlots, List.map_map]
  refine (List.map_congr_left fun c hc => ?_).trans (List.map_id _)
  rw [Function.comp_apply, Clause.mapSlots_mapSlots]
  exact Clause.mapSlots_eq_self fun s hs => h s (List.mem_flatMap.2 ⟨c, hc, hs⟩)

end Pattern

/-! ## Resolving other names -/

/-- A slot of another name is resolved as the slot is. -/
theorem BindStep.mapSlots {rest : List Slot} (hstep : BindStep negated bs kind slot b bs')
    (h : Faithful φ (bs.map (·.name) ++ slot :: rest)) :
    BindStep negated (bs.map (Binding.mapName φ)) kind (φ slot) (b.mapName φ)
        (bs'.map (Binding.mapName φ)) ∧
      Faithful φ (bs'.map (·.name) ++ rest) := by
  cases hstep with
  | found hslot hb hkind hname =>
    -- the name occurs twice, and so it is not erased
    have hkept : φ slot ≠ none := by
      have honce := (List.pairwise_append.1 h.once).2.2 b.name (List.mem_map_of_mem hb) slot
        List.mem_cons_self (hname.trans hslot.symm) (by rw [hname]; exact Option.some_ne_none _)
      rwa [hname, ← hslot] at honce
    obtain ⟨name', hname'⟩ := Option.ne_none_iff_exists'.1 hkept
    refine ⟨.found hname' (List.mem_map_of_mem hb) hkind ?_,
      h.sublist ((List.sublist_cons_self slot rest).append_left _)⟩
    rw [← hname', hslot, ← hname]
    rfl
  | introduced hslot =>
    have hfresh : (Binding.fresh bs kind slot).mapName φ =
        Binding.fresh (bs.map (Binding.mapName φ)) kind (φ slot) := by
      rw [Binding.fresh, Binding.fresh, List.length_map]
      rfl
    refine ⟨?_, ?_⟩
    · rw [List.map_append, List.map_singleton, hfresh]
      refine .introduced fun name' hname' => ?_
      cases slot with
      | none => cases h.map_none.symm.trans hname'
      | some name =>
        obtain ⟨hnegated, hfree⟩ := hslot name rfl
        refine ⟨hnegated, ?_⟩
        rintro kind' ⟨b', hb', -, hb'name⟩
        obtain ⟨b₀, hb₀, rfl⟩ := List.mem_map.1 hb'
        have hsame : φ b₀.name = φ (some name) := hb'name.trans hname'.symm
        have hname : b₀.name = some name :=
          h.inj _ (List.mem_append_left _ (List.mem_map_of_mem hb₀)) _
            (List.mem_append_right _ List.mem_cons_self) hsame
            (by rw [hsame, hname']; exact Option.some_ne_none _)
        exact hfree b₀.kind ⟨b₀, hb₀, rfl, hname⟩
    · rw [List.map_append, List.append_assoc]
      exact h

theorem BindSteps.mapSlots {slots : List (Element × Slot)} {rest : List Slot}
    (hsteps : BindSteps negated bs slots found bs')
    (h : Faithful φ (bs.map (·.name) ++ (slots.map Prod.snd ++ rest))) :
    BindSteps negated (bs.map (Binding.mapName φ)) (slots.map fun (kind, slot) => (kind, φ slot))
        (found.map (Binding.mapName φ)) (bs'.map (Binding.mapName φ)) ∧
      Faithful φ (bs'.map (·.name) ++ rest) := by
  induction hsteps with
  | nil => exact ⟨.nil, h⟩
  | cons hstep _ ih =>
    obtain ⟨hfirst, h⟩ := hstep.mapSlots h
    obtain ⟨hrest, h⟩ := ih h
    exact ⟨.cons hfirst hrest, h⟩

theorem resolveClauses_mapSlots {clauses : List Clause} {resolved : List ResolvedClause}
    (hscope : Scope bs) (hscope' : Scope (bs.map (Binding.mapName φ)))
    (hok : Resolution.resolveClauses bs clauses = .ok (resolved, bs'))
    (h : Faithful φ (bs.map (·.name) ++ clauses.flatMap fun c => c.slots.map Prod.snd)) :
    Resolution.resolveClauses (bs.map (Binding.mapName φ)) (clauses.map (Clause.mapSlots φ)) =
      .ok (resolved.map (ResolvedClause.mapSlots φ), bs'.map (Binding.mapName φ)) := by
  induction clauses generalizing bs resolved with
  | nil =>
    obtain ⟨rfl, rfl⟩ := Prod.mk.inj (Except.ok.inj hok)
    rfl
  | cons c clauses ih =>
    obtain ⟨first, bs₁, rest, hfirst, hrest, rfl⟩ := resolveClauses_cons_eq_ok_iff.1 hok
    obtain ⟨hclause, hsteps⟩ := (resolveClause_eq_ok_iff hscope).1 hfirst
    rw [List.flatMap_cons] at h
    obtain ⟨hsteps', h⟩ := hsteps.mapSlots h
    rw [List.map_cons, resolveClauses_cons_eq_ok_iff]
    refine ⟨first.mapSlots φ, _, rest.map (ResolvedClause.mapSlots φ), ?_,
      ih (hsteps.scope hscope) (hsteps'.scope hscope') hrest h, rfl⟩
    rw [resolveClause_eq_ok_iff hscope', ResolvedClause.clause_mapSlots, hclause,
      ResolvedClause.bindings_mapSlots, Clause.negated_mapSlots, Clause.slots_mapSlots]
    exact ⟨rfl, hsteps'⟩

namespace Pattern

variable {p : Pattern} {r : Resolution}

/-- A pattern with other names is resolved to the same bindings under these names. -/
theorem resolve_mapSlots (hr : p.resolve = .ok r) (h : Faithful φ p.slots) :
    (p.mapSlots φ).resolve = .ok (r.mapSlots φ) := by
  obtain ⟨clauses, bindings, hok, hpositive, rfl⟩ := resolve_eq_ok_iff.1 hr
  refine resolve_eq_ok_iff.2 ⟨_, _, resolveClauses_mapSlots .nil .nil hok h, fun hne => ?_, ?_⟩
  · obtain ⟨c, hc, hnegated⟩ := hpositive (mt List.map_eq_nil_iff.2 hne)
    exact ⟨c.mapSlots φ, List.mem_map_of_mem hc, (c.negated_mapSlots φ).trans hnegated⟩
  · -- a binding that is shown under another name was shown before
    have hvisible : ((bindings.filter Binding.visible).map (Binding.mapName φ)).filter
        Binding.visible = (bindings.map (Binding.mapName φ)).filter Binding.visible := by
      rw [List.filter_map, List.filter_map, List.filter_filter]
      refine congrArg _ (List.filter_congr fun b _ => ?_)
      show ((φ b.name).isSome && b.name.isSome) = (φ b.name).isSome
      cases hname : b.name with
      | none => rw [h.map_none]; rfl
      | some name => exact Bool.and_true _
    exact congrArg (Resolution.mk _ _ _) hvisible

end Pattern

/-- The bindings of slots carry their names. -/
theorem BindSteps.map_name {slots : List (Element × Slot)}
    (hsteps : BindSteps negated bs slots found bs') :
    found.map (·.name) = slots.map Prod.snd := by
  induction hsteps with
  | nil => rfl
  | cons hstep _ ih => rw [List.map_cons, List.map_cons, hstep.spec.2.2, ih]

/-- The bindings of resolved clauses carry the names of the slots. -/
theorem names_of_resolveClauses {clauses : List Clause} {resolved : List ResolvedClause}
    (hscope : Scope bs) (hok : Resolution.resolveClauses bs clauses = .ok (resolved, bs')) :
    ∀ c ∈ resolved, c.bindings.map (·.name) = c.clause.slots.map Prod.snd := by
  intro c hc
  obtain ⟨_, _, -, hsteps, -⟩ := exists_steps_of_mem hscope hok hc
  exact hsteps.map_name

/-! ## Injective renamings -/

section Rename

variable (f : String → String)

/-- The pattern with other names. -/
def Pattern.rename (p : Pattern) : Pattern := p.mapSlots (Option.map f)

/-- The binding under another name: its kind, its column and its number stay. -/
def Binding.rename (b : Binding) : Binding := { b with name := b.name.map f }

/-- The resolved pattern with other names. -/
def Resolution.rename (r : Resolution) : Resolution where
  pattern := r.pattern.rename f
  clauses := r.clauses.map (ResolvedClause.mapSlots (Option.map f))
  bindings := r.bindings.map (Binding.rename f)
  outputs := r.outputs.map (Binding.rename f)

end Rename

/-- Different names of a pattern stay different. -/
def Pattern.InjectsNames (p : Pattern) (f : String → String) : Prop :=
  Set.InjOn f {name | some name ∈ p.slots}

variable {p : Pattern} {f : String → String}

theorem Pattern.InjectsNames.faithful (h : p.InjectsNames f) :
    Faithful (Option.map f) p.slots where
  map_none := rfl
  inj s hs s' hs' heq hne := by
    cases s with
    | none => exact absurd rfl hne
    | some name =>
      cases s' with
      | none => exact absurd heq nofun
      | some name' => exact congrArg some (h hs hs' (Option.some.inj heq))
  once := List.pairwise_of_forall fun s _ _ hne => mt Option.map_eq_none_iff.1 hne

/-- Other names can be exchanged back. -/
theorem Pattern.InjectsNames.exists_inverse (h : p.InjectsNames f) :
    ∃ f', (p.rename f).InjectsNames f' ∧ (p.rename f).rename f' = p := by
  obtain ⟨f', hinverse⟩ : ∃ f' : String → String, ∀ name, some name ∈ p.slots → f' (f name) = name :=
    ⟨_, fun _ hname => h.leftInvOn_invFunOn hname⟩
  refine ⟨f', ?_, mapSlots_mapSlots_eq_self fun s hs => ?_⟩
  · have hslot {name : String} (hname : some name ∈ (p.rename f).slots) :
        ∃ old, some old ∈ p.slots ∧ f old = name := by
      rw [rename, slots_mapSlots] at hname
      obtain ⟨s, hs, heq⟩ := List.mem_map.1 hname
      obtain ⟨old, rfl, hold⟩ := Option.map_eq_some_iff.1 heq
      exact ⟨old, hs, hold⟩
    intro name hname name' hname' heq
    obtain ⟨old, hold, rfl⟩ := hslot hname
    obtain ⟨old', hold', rfl⟩ := hslot hname'
    rw [hinverse old hold, hinverse old' hold'] at heq
    rw [heq]
  · cases s with
    | none => rfl
    | some name => exact congrArg some (hinverse name hs)

theorem Pattern.visible_of_mem_outputs {r : Resolution} (hr : p.resolve = .ok r) :
    ∀ b ∈ r.outputs, b.visible = true := by
  obtain ⟨_, _, _, _, rfl⟩ := resolve_eq_ok_iff.1 hr
  exact fun b hb => (List.mem_filter.1 hb).2

theorem Resolution.mapSlots_map (f : String → String) {r : Resolution} (hr : p.resolve = .ok r) :
    r.mapSlots (Option.map f) = r.rename f := by
  refine congrArg (Resolution.mk _ _ _) (List.filter_eq_self.2 ?_)
  refine List.forall_mem_map.2 fun b hb => ?_
  exact Option.isSome_map.trans (Pattern.visible_of_mem_outputs hr b hb)

/-- What succeeds under other names whenever it succeeds also fails with them, since other names can
be exchanged back. -/
theorem Pattern.InjectsNames.toOption_eq {ε α : Type} (run : Pattern → Except ε α)
    (renamed : Pattern → (String → String) → α → α)
    (hrun : ∀ {p : Pattern} {f : String → String}, p.InjectsNames f → ∀ {a}, run p = .ok a →
      run (p.rename f) = .ok (renamed p f a))
    (h : p.InjectsNames f) : (run (p.rename f)).toOption = (run p).toOption.map (renamed p f) := by
  cases hok : run p with
  | ok a =>
    rw [hrun h hok]
    rfl
  | error e =>
    cases hok' : run (p.rename f) with
    | error e' => rfl
    | ok a' =>
      obtain ⟨f', h', hback⟩ := h.exists_inverse
      have hok'' := hrun h' hok'
      rw [hback, hok] at hok''
      exact absurd hok'' nofun

/-- A pattern is resolved under other names exactly if it is resolved, to the same bindings under
these names. -/
theorem Pattern.resolve_rename (h : p.InjectsNames f) :
    (p.rename f).resolve.toOption = p.resolve.toOption.map (Resolution.rename f) := by
  refine InjectsNames.toOption_eq resolve (fun _ => Resolution.rename) (fun {p f} h {r} hr => ?_) h
  rw [rename, resolve_mapSlots hr h.faithful, Resolution.mapSlots_map f hr]

end GraphMotif
