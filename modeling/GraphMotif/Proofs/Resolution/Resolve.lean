import GraphMotif.Proofs.Resolution.Scope
import Mathlib.Data.List.Basic
import Mathlib.Data.List.Induction

/-!
# When names resolve

What resolving one slot, the slots of a clause and the clauses of a pattern does to a scope, and
that it succeeds exactly when the names are used as they have to be.
-/

namespace GraphMotif

/-- What resolving a slot does: it finds the binding of its name, or introduces a fresh one. A name
is introduced only by a positive clause and only if it is not bound. -/
inductive BindStep (negated : Bool) (bs : List Binding) (kind : Element) (slot : Slot) :
    Binding → List Binding → Prop
  | found {b : Binding} {name : String} (hslot : slot = some name) (hb : b ∈ bs)
      (hkind : b.kind = kind) (hname : b.name = some name) : BindStep negated bs kind slot b bs
  | introduced (hslot : ∀ name, slot = some name →
      negated = false ∧ ∀ kind', ¬Bound bs kind' name) :
      BindStep negated bs kind slot (Binding.fresh bs kind slot)
        (bs ++ [Binding.fresh bs kind slot])

/-- What resolving slots from left to right does. -/
inductive BindSteps (negated : Bool) :
    List Binding → List (Element × Slot) → List Binding → List Binding → Prop
  | nil {bs : List Binding} : BindSteps negated bs [] [] bs
  | cons {bs bs₁ bs' found : List Binding} {b : Binding} {kind : Element} {slot : Slot}
      {slots : List (Element × Slot)} (hstep : BindStep negated bs kind slot b bs₁)
      (hsteps : BindSteps negated bs₁ slots found bs') :
      BindSteps negated bs ((kind, slot) :: slots) (b :: found) bs'

/-- The bindings of the slots of a clause. -/
def ResolvedClause.bindings : ResolvedClause → List Binding
  | vertex _ v => [v]
  | edge _ src e dst => [src, e, dst]

variable {bs bs₁ bs' found : List Binding} {b : Binding} {kind kind' : Element} {slot : Slot}
  {name : String} {negated : Bool} {slots : List (Element × Slot)} {c : Clause}

/-! ## One slot -/

theorem bind_eq_ok_iff_step (h : Scope bs) :
    Resolution.bind bs c kind slot = .ok (b, bs') ↔ BindStep c.negated bs kind slot b bs' := by
  constructor
  · intro hok
    cases slot with
    | none =>
      obtain ⟨rfl, rfl⟩ := Prod.mk.inj (Except.ok.inj hok)
      exact .introduced nofun
    | some name =>
      rw [Resolution.bind] at hok
      cases hfind : Binding.find? bs name with
      | some bound =>
        obtain ⟨hmem, hname⟩ := Scope.mem_of_find?_eq_some hfind
        simp only [hfind] at hok
        split at hok
        · next hkind =>
          obtain ⟨rfl, rfl⟩ := Prod.mk.inj (Except.ok.inj hok)
          exact .found rfl hmem hkind hname
        · exact absurd hok nofun
      | none =>
        simp only [hfind] at hok
        split at hok
        · exact absurd hok nofun
        · next hneg =>
          obtain ⟨rfl, rfl⟩ := Prod.mk.inj (Except.ok.inj hok)
          refine .introduced fun name' hname' => ⟨by simpa using hneg, ?_⟩
          rw [← Option.some.inj hname']
          exact Scope.find?_eq_none_iff.1 hfind
  · intro hstep
    cases hstep with
    | found hslot hb hkind hname =>
      rw [hslot, Resolution.bind]
      simp only [h.find?_eq_some hb hname, if_pos hkind]
    | introduced hslot =>
      cases slot with
      | none => rfl
      | some name =>
        obtain ⟨hneg, hfree⟩ := hslot name rfl
        rw [Resolution.bind]
        simp only [Scope.find?_eq_none_iff.2 hfree, hneg, Bool.false_eq_true, if_false]

namespace BindStep

theorem scope (hstep : BindStep negated bs kind slot b bs') (h : Scope bs) : Scope bs' := by
  cases hstep with
  | found => exact h
  | introduced hslot => exact h.concat_fresh kind fun name hname => (hslot name hname).2

theorem subset (hstep : BindStep negated bs kind slot b bs') : ∀ b' ∈ bs, b' ∈ bs' := by
  cases hstep with
  | found => exact fun _ hb' => hb'
  | introduced => exact fun _ hb' => List.mem_append_left _ hb'

/-- The binding of a slot is in scope, of the kind and with the name of the slot. -/
theorem spec (hstep : BindStep negated bs kind slot b bs') :
    b ∈ bs' ∧ b.kind = kind ∧ b.name = slot := by
  cases hstep with
  | found hslot hb hkind hname => exact ⟨hb, hkind, hname.trans hslot.symm⟩
  | introduced => exact ⟨List.mem_concat_self, rfl, rfl⟩

theorem bound_iff (hstep : BindStep negated bs kind slot b bs') :
    Bound bs' kind' name ↔ Bound bs kind' name ∨ (kind', some name) = (kind, slot) := by
  cases hstep with
  | found hslot hb hkind hname =>
    refine ⟨.inl, fun h => h.elim id fun heq => ?_⟩
    obtain ⟨rfl, hslot'⟩ := Prod.mk.inj heq
    exact ⟨b, hb, hkind, hname.trans (hslot.symm.trans hslot'.symm)⟩
  | introduced => exact Scope.bound_concat_fresh bs kind kind' slot name

theorem mem_of_negated (hstep : BindStep true bs kind slot b bs') :
    ∀ b' ∈ bs', b'.name.isSome = true → b' ∈ bs := by
  cases hstep with
  | found => exact fun _ hb' _ => hb'
  | introduced hslot =>
    intro b' hb' hname
    rcases List.mem_append.1 hb' with hb' | hb'
    · exact hb'
    · rw [List.mem_singleton.1 hb'] at hname
      obtain ⟨name, hname⟩ := Option.isSome_iff_exists.1 hname
      exact absurd (hslot name hname).1 nofun

/-- A slot can be resolved unless its name is bound to another kind, or unbound in a negated
clause. -/
theorem exists_iff (h : Scope bs) :
    (∃ b bs', BindStep negated bs kind slot b bs') ↔ ∀ name, slot = some name →
      (∀ kind', Bound bs kind' name → kind' = kind) ∧
        (negated = true → Bound bs kind name) := by
  constructor
  · rintro ⟨b, bs', hstep⟩ name rfl
    cases hstep with
    | found hslot hb hkind hname =>
      obtain rfl := Option.some.inj hslot
      have hbound : Bound bs kind name := ⟨b, hb, hkind, hname⟩
      exact ⟨fun kind' hbound' => h.kind_unique hbound' hbound, fun _ => hbound⟩
    | introduced hslot =>
      obtain ⟨hneg, hfree⟩ := hslot name rfl
      refine ⟨fun kind' hbound => absurd hbound (hfree kind'), fun hneg' => ?_⟩
      rw [hneg] at hneg'
      exact absurd hneg' Bool.false_ne_true
  · intro hslot
    cases slot with
    | none => exact ⟨_, _, .introduced nofun⟩
    | some name =>
      obtain ⟨hkind, hneg⟩ := hslot name rfl
      by_cases hbound : Bound bs kind name
      · obtain ⟨b, hb, hbkind, hname⟩ := hbound
        exact ⟨b, bs, .found rfl hb hbkind hname⟩
      · refine ⟨_, _, .introduced fun name' hname' => ?_⟩
        obtain rfl := Option.some.inj hname'
        exact ⟨Bool.eq_false_iff.2 fun hneg' => hbound (hneg hneg'),
          fun kind' hbound' => hbound (hkind kind' hbound' ▸ hbound')⟩

end BindStep

/-! ## The slots of a clause -/

/-- Names are used for one kind of element each. -/
def OneKind (uses : Element → String → Prop) : Prop :=
  ∀ name kind kind', uses kind name → uses kind' name → kind = kind'

theorem OneKind.mono {uses uses' : Element → String → Prop} (h : OneKind uses')
    (hmono : ∀ kind name, uses kind name → uses' kind name) : OneKind uses :=
  fun name kind kind' huse huse' => h name kind kind' (hmono _ _ huse) (hmono _ _ huse')

namespace BindSteps

theorem scope (hsteps : BindSteps negated bs slots found bs') (h : Scope bs) : Scope bs' := by
  induction hsteps with
  | nil => exact h
  | cons hstep _ ih => exact ih (hstep.scope h)

theorem subset (hsteps : BindSteps negated bs slots found bs') : ∀ b ∈ bs, b ∈ bs' := by
  induction hsteps with
  | nil => exact fun _ hb => hb
  | cons hstep _ ih => exact fun b hb => ih b (hstep.subset b hb)

theorem bound_iff (hsteps : BindSteps negated bs slots found bs') :
    Bound bs' kind name ↔ Bound bs kind name ∨ (kind, some name) ∈ slots := by
  induction hsteps with
  | nil => simp only [List.not_mem_nil, or_false]
  | cons hstep _ ih => rw [ih, hstep.bound_iff, List.mem_cons, or_assoc]

/-- Every slot has a binding in scope, of its kind and with its name. -/
theorem spec (hsteps : BindSteps negated bs slots found bs') :
    List.Forall₂ (fun slot b => b ∈ bs' ∧ b.kind = slot.1 ∧ b.name = slot.2) slots found := by
  induction hsteps with
  | nil => exact .nil
  | cons hstep hsteps ih =>
    obtain ⟨hmem, hkind, hname⟩ := hstep.spec
    exact .cons ⟨hsteps.subset _ hmem, hkind, hname⟩ ih

theorem found_subset (hsteps : BindSteps negated bs slots found bs') : ∀ b ∈ found, b ∈ bs' := by
  induction hsteps with
  | nil => exact fun _ hb => absurd hb List.not_mem_nil
  | cons hstep hsteps ih =>
    exact List.forall_mem_cons.2 ⟨hsteps.subset _ hstep.spec.1, ih⟩

/-- A binding in scope was there before or is that of a slot. -/
theorem mem_or_found (hsteps : BindSteps negated bs slots found bs') :
    ∀ b ∈ bs', b ∈ bs ∨ b ∈ found := by
  induction hsteps with
  | nil => exact fun _ hb => .inl hb
  | cons hstep _ ih =>
    intro b hb
    rcases ih b hb with hb | hb
    · cases hstep with
      | found => exact .inl hb
      | introduced =>
        rcases List.mem_append.1 hb with hb | hb
        · exact .inl hb
        · exact .inr (List.mem_singleton.1 hb ▸ List.mem_cons_self)
    · exact .inr (List.mem_cons_of_mem _ hb)

/-- A negated clause brings no name into scope. -/
theorem mem_of_negated (hsteps : BindSteps true bs slots found bs') :
    ∀ b ∈ bs', b.name.isSome = true → b ∈ bs := by
  induction hsteps with
  | nil => exact fun _ hb _ => hb
  | cons hstep _ ih => exact fun b hb hname => hstep.mem_of_negated b (ih b hb hname) hname

/-- A slot without a name has a binding of its own. -/
theorem notMem_of_nameless (hsteps : BindSteps negated bs slots found bs') (h : Scope bs) :
    ∀ b ∈ found, b.name = none → b ∉ bs := by
  induction hsteps with
  | nil => exact fun _ hb => absurd hb List.not_mem_nil
  | cons hstep _ ih =>
    refine List.forall_mem_cons.2 ⟨fun hname hb => ?_, fun b hb hname hmem => ?_⟩
    · cases hstep with
      | found _ _ _ hname' => exact absurd (hname.symm.trans hname') nofun
      | introduced => exact Nat.lt_irrefl _ (h.rank_lt hb)
    · exact ih (hstep.scope h) b hb hname (hstep.subset b hmem)

/-- Slots can be resolved when, with what is bound, they use each name for one kind, and when the
names in a negated clause are bound. -/
theorem exists_iff (h : Scope bs) :
    (∃ found bs', BindSteps negated bs slots found bs') ↔
      OneKind (fun kind name => Bound bs kind name ∨ (kind, some name) ∈ slots) ∧
        (negated = true → ∀ kind name, (kind, some name) ∈ slots → Bound bs kind name) := by
  induction slots generalizing bs with
  | nil =>
    refine iff_of_true ⟨[], bs, .nil⟩ ⟨?_, fun _ _ _ hmem => absurd hmem List.not_mem_nil⟩
    rintro name kind kind' (hbound | hmem) (hbound' | hmem')
    · exact h.kind_unique hbound hbound'
    · exact absurd hmem' List.not_mem_nil
    · exact absurd hmem List.not_mem_nil
    · exact absurd hmem List.not_mem_nil
  | cons head slots ih =>
    obtain ⟨kind, slot⟩ := head
    constructor
    · rintro ⟨_, bs', hsteps⟩
      cases hsteps with
      | @cons _ bs₁ _ found b _ _ _ hstep hsteps =>
        obtain ⟨hone, hneg⟩ := (ih (hstep.scope h)).1 ⟨found, bs', hsteps⟩
        have hhead : negated = true → ∀ name, slot = some name → Bound bs kind name :=
          fun hnegated name hname =>
            ((BindStep.exists_iff h).1 ⟨b, bs₁, hstep⟩ name hname).2 hnegated
        refine ⟨hone.mono fun kind' name huse => ?_, fun hnegated kind' name hmem => ?_⟩
        · rw [hstep.bound_iff, or_assoc, ← List.mem_cons]
          exact huse
        · rcases List.mem_cons.1 hmem with heq | hmem
          · obtain ⟨rfl, hslot⟩ := Prod.mk.inj heq
            exact hhead hnegated name hslot.symm
          · rcases hstep.bound_iff.1 (hneg hnegated kind' name hmem) with hbound | heq
            · exact hbound
            · obtain ⟨rfl, hslot⟩ := Prod.mk.inj heq
              exact hhead hnegated name hslot.symm
    · rintro ⟨hone, hneg⟩
      obtain ⟨b, bs₁, hstep⟩ : ∃ b bs₁, BindStep negated bs kind slot b bs₁ := by
        refine (BindStep.exists_iff h).2 fun name hname => ⟨fun kind' hbound => ?_, fun hn => ?_⟩
        · exact hone name kind' kind (.inl hbound) (.inr (hname ▸ List.mem_cons_self))
        · exact hneg hn kind name (hname ▸ List.mem_cons_self)
      have hone₁ : OneKind fun kind name => Bound bs₁ kind name ∨ (kind, some name) ∈ slots :=
        hone.mono fun kind' name huse => by
          rw [hstep.bound_iff, or_assoc, ← List.mem_cons] at huse
          exact huse
      have hneg₁ : negated = true → ∀ kind name, (kind, some name) ∈ slots → Bound bs₁ kind name :=
        fun hn kind' name hmem =>
          hstep.bound_iff.2 (.inl (hneg hn kind' name (List.mem_cons_of_mem _ hmem)))
      obtain ⟨found, bs', hsteps⟩ := (ih (hstep.scope h)).2 ⟨hone₁, hneg₁⟩
      exact ⟨b :: found, bs', .cons hstep hsteps⟩

end BindSteps

theorem resolveClause_eq_ok_iff {resolved : ResolvedClause} (h : Scope bs) :
    Resolution.resolveClause bs c = .ok (resolved, bs') ↔
      resolved.clause = c ∧ BindSteps c.negated bs c.slots resolved.bindings bs' := by
  cases c with
  | vertex slot =>
    rw [Resolution.resolveClause, bind_eq_ok_iff]
    constructor
    · rintro ⟨⟨v, bs₁⟩, hv, heq⟩
      obtain ⟨rfl, rfl⟩ := Prod.mk.inj (Except.ok.inj heq)
      exact ⟨rfl, .cons ((bind_eq_ok_iff_step h).1 hv) .nil⟩
    · rintro ⟨hclause, hsteps⟩
      cases resolved with
      | edge => exact absurd hclause nofun
      | vertex slot' v =>
        obtain rfl := Clause.vertex.inj hclause
        cases hsteps with
        | cons hstep hnil =>
          cases hnil
          exact ⟨(v, bs'), (bind_eq_ok_iff_step h).2 hstep, rfl⟩
  | edge e =>
    rw [Resolution.resolveClause, bind_eq_ok_iff]
    constructor
    · rintro ⟨⟨src, bs₁⟩, hsrc, hrest⟩
      obtain ⟨⟨edge, bs₂⟩, hedge, hrest⟩ := bind_eq_ok_iff.1 hrest
      obtain ⟨⟨dst, bs₃⟩, hdst, heq⟩ := bind_eq_ok_iff.1 hrest
      obtain ⟨rfl, rfl⟩ := Prod.mk.inj (Except.ok.inj heq)
      have hstep₁ := (bind_eq_ok_iff_step h).1 hsrc
      have hstep₂ := (bind_eq_ok_iff_step (hstep₁.scope h)).1 hedge
      have hstep₃ := (bind_eq_ok_iff_step (hstep₂.scope (hstep₁.scope h))).1 hdst
      exact ⟨rfl, .cons hstep₁ (.cons hstep₂ (.cons hstep₃ .nil))⟩
    · rintro ⟨hclause, hsteps⟩
      cases resolved with
      | vertex => exact absurd hclause nofun
      | edge e' src edge dst =>
        obtain rfl := Clause.edge.inj hclause
        cases hsteps with
        | cons hstep₁ hsteps =>
        cases hsteps with
        | cons hstep₂ hsteps =>
        cases hsteps with
        | cons hstep₃ hnil =>
          cases hnil
          refine ⟨_, (bind_eq_ok_iff_step h).2 hstep₁, bind_eq_ok_iff.2
            ⟨_, (bind_eq_ok_iff_step (hstep₁.scope h)).2 hstep₂, bind_eq_ok_iff.2
              ⟨_, (bind_eq_ok_iff_step (hstep₂.scope (hstep₁.scope h))).2 hstep₃, rfl⟩⟩⟩

/-- The bindings of the slots of a clause make a resolved clause. -/
theorem BindSteps.exists_resolved (hsteps : BindSteps negated bs c.slots found bs') :
    ∃ resolved : ResolvedClause, resolved.clause = c ∧ resolved.bindings = found := by
  cases c with
  | vertex slot =>
    cases hsteps with
    | @cons _ _ _ _ v _ _ _ _ hnil =>
      cases hnil
      exact ⟨.vertex slot v, rfl, rfl⟩
  | edge e =>
    cases hsteps with
    | @cons _ _ _ _ src _ _ _ _ hsteps =>
    cases hsteps with
    | @cons _ _ _ _ edge _ _ _ _ hsteps =>
    cases hsteps with
    | @cons _ _ _ _ dst _ _ _ _ hnil =>
      cases hnil
      exact ⟨.edge e src edge dst, rfl, rfl⟩

/-! ## The clauses of a pattern -/

/-- What holds of every item of a list and the items before it. -/
theorem forall_split_cons_iff {α : Type} {x : α} {xs : List α} {p : List α → α → Prop} :
    (∀ before y after, x :: xs = before ++ y :: after → p before y) ↔
      p [] x ∧ ∀ before y after, xs = before ++ y :: after → p (x :: before) y := by
  constructor
  · exact fun h => ⟨h [] x xs rfl, fun before y after heq => h (x :: before) y after (heq ▸ rfl)⟩
  · rintro ⟨hx, hxs⟩ before y after heq
    rcases List.cons_eq_append_iff.1 heq with ⟨rfl, hcons⟩ | ⟨before', rfl, hxs'⟩
    · obtain ⟨rfl, -⟩ := List.cons.inj hcons
      exact hx
    · exact hxs before' y after hxs'

/-- The names of every negated clause are bound, or occur in clauses before it. -/
def NegatedBound (bs : List Binding) (clauses : List Clause) : Prop :=
  ∀ before c after, clauses = before ++ c :: after → c.negated = true →
    ∀ kind, ∀ name ∈ c.names kind, Bound bs kind name ∨ ∃ c' ∈ before, name ∈ c'.names kind

theorem resolveClauses_cons_eq_ok_iff {clauses : List Clause} {resolved : List ResolvedClause} :
    Resolution.resolveClauses bs (c :: clauses) = .ok (resolved, bs') ↔
      ∃ first bs₁ rest, Resolution.resolveClause bs c = .ok (first, bs₁) ∧
        Resolution.resolveClauses bs₁ clauses = .ok (rest, bs') ∧ resolved = first :: rest := by
  rw [Resolution.resolveClauses, bind_eq_ok_iff]
  constructor
  · rintro ⟨⟨first, bs₁⟩, hfirst, hrest⟩
    obtain ⟨⟨rest, bs₂⟩, hrest', heq⟩ := bind_eq_ok_iff.1 hrest
    obtain ⟨rfl, rfl⟩ := Prod.mk.inj (Except.ok.inj heq)
    exact ⟨first, bs₁, rest, hfirst, hrest', rfl⟩
  · rintro ⟨first, bs₁, rest, hfirst, hrest, rfl⟩
    exact ⟨(first, bs₁), hfirst, bind_eq_ok_iff.2 ⟨(rest, bs'), hrest, rfl⟩⟩

/-- Clauses can be resolved when, with what is bound, they use each name for one kind, and when the
names of negated clauses are bound before. -/
theorem exists_resolveClauses_iff (clauses : List Clause) (h : Scope bs) :
    (∃ resolved bs', Resolution.resolveClauses bs clauses = .ok (resolved, bs')) ↔
      OneKind (fun kind name => Bound bs kind name ∨ ∃ c ∈ clauses, name ∈ c.names kind) ∧
        NegatedBound bs clauses := by
  induction clauses generalizing bs with
  | nil =>
    refine iff_of_true ⟨[], bs, rfl⟩ ⟨?_, fun before _ _ heq => absurd heq (by simp)⟩
    simp only [List.not_mem_nil, false_and, exists_false, or_false]
    exact fun name kind kind' => h.kind_unique
  | cons c clauses ih =>
    -- after the first clause its names are bound
    have huses {bs₁ : List Binding} {found : List Binding}
        (hsteps : BindSteps c.negated bs c.slots found bs₁) (kind : Element) (name : String) :
        (Bound bs₁ kind name ∨ ∃ c' ∈ clauses, name ∈ c'.names kind) ↔
          Bound bs kind name ∨ ∃ c' ∈ c :: clauses, name ∈ c'.names kind := by
      rw [hsteps.bound_iff, ← Clause.mem_names_iff, List.exists_mem_cons_iff, or_assoc]
    have hnegated {bs₁ : List Binding} {found : List Binding}
        (hsteps : BindSteps c.negated bs c.slots found bs₁) :
        NegatedBound bs (c :: clauses) ↔
          (c.negated = true → ∀ kind name, (kind, some name) ∈ c.slots → Bound bs kind name) ∧
            NegatedBound bs₁ clauses := by
      rw [NegatedBound, forall_split_cons_iff]
      refine and_congr ?_ ?_
      · simp only [Clause.mem_names_iff, List.not_mem_nil, false_and, exists_false, or_false]
      · rw [NegatedBound]
        simp only [List.exists_mem_cons_iff, hsteps.bound_iff, Clause.mem_names_iff, or_assoc]
    constructor
    · rintro ⟨resolved, bs', hok⟩
      obtain ⟨first, bs₁, rest, hfirst, hrest, -⟩ := resolveClauses_cons_eq_ok_iff.1 hok
      obtain ⟨-, hsteps⟩ := (resolveClause_eq_ok_iff h).1 hfirst
      obtain ⟨hone, hneg⟩ := (ih (hsteps.scope h)).1 ⟨rest, bs', hrest⟩
      refine ⟨hone.mono fun kind name => (huses hsteps kind name).2, (hnegated hsteps).2 ⟨?_, hneg⟩⟩
      exact ((BindSteps.exists_iff h).1 ⟨_, _, hsteps⟩).2
    · rintro ⟨hone, hneg⟩
      have hslots : OneKind (fun kind name => Bound bs kind name ∨ (kind, some name) ∈ c.slots) :=
        hone.mono fun kind name huse => huse.imp_right fun hmem =>
          ⟨c, List.mem_cons_self, Clause.mem_names_iff.2 hmem⟩
      have hfirst : c.negated = true → ∀ kind name, (kind, some name) ∈ c.slots →
          Bound bs kind name := fun hc kind name hmem =>
        (hneg [] c clauses rfl hc kind name (Clause.mem_names_iff.2 hmem)).resolve_right
          fun ⟨_, hnil, _⟩ => absurd hnil List.not_mem_nil
      obtain ⟨found, bs₁, hsteps⟩ := (BindSteps.exists_iff h).2 ⟨hslots, hfirst⟩
      obtain ⟨first, hclause, rfl⟩ := hsteps.exists_resolved
      obtain ⟨rest, bs', hrest⟩ := (ih (hsteps.scope h)).2
        ⟨hone.mono fun kind name => (huses hsteps kind name).1, ((hnegated hsteps).1 hneg).2⟩
      exact ⟨first :: rest, bs', resolveClauses_cons_eq_ok_iff.2
        ⟨first, bs₁, rest, (resolveClause_eq_ok_iff h).2 ⟨hclause, hsteps⟩, hrest, rfl⟩⟩

theorem map_clause_of_resolveClauses {clauses : List Clause} {resolved : List ResolvedClause}
    (h : Scope bs) (hok : Resolution.resolveClauses bs clauses = .ok (resolved, bs')) :
    resolved.map ResolvedClause.clause = clauses := by
  induction clauses generalizing bs resolved with
  | nil =>
    obtain ⟨rfl, -⟩ := Prod.mk.inj (Except.ok.inj hok)
    rfl
  | cons c clauses ih =>
    obtain ⟨first, bs₁, rest, hfirst, hrest, rfl⟩ := resolveClauses_cons_eq_ok_iff.1 hok
    obtain ⟨hclause, hsteps⟩ := (resolveClause_eq_ok_iff h).1 hfirst
    rw [List.map_cons, hclause, ih (hsteps.scope h) hrest]

theorem subset_of_resolveClauses {clauses : List Clause} {resolved : List ResolvedClause}
    (h : Scope bs) (hok : Resolution.resolveClauses bs clauses = .ok (resolved, bs')) :
    ∀ b ∈ bs, b ∈ bs' := by
  induction clauses generalizing bs resolved with
  | nil =>
    obtain ⟨-, rfl⟩ := Prod.mk.inj (Except.ok.inj hok)
    exact fun b hb => hb
  | cons c clauses ih =>
    obtain ⟨first, bs₁, rest, hfirst, hrest, -⟩ := resolveClauses_cons_eq_ok_iff.1 hok
    obtain ⟨-, hsteps⟩ := (resolveClause_eq_ok_iff h).1 hfirst
    exact fun b hb => ih (hsteps.scope h) hrest b (hsteps.subset b hb)

/-- Every clause is resolved by steps within the scope that all clauses lead to. -/
theorem exists_steps_of_mem {clauses : List Clause} {resolved : List ResolvedClause}
    {c : ResolvedClause} (h : Scope bs)
    (hok : Resolution.resolveClauses bs clauses = .ok (resolved, bs')) (hc : c ∈ resolved) :
    ∃ bs₁ bs₂, Scope bs₁ ∧ BindSteps c.clause.negated bs₁ c.clause.slots c.bindings bs₂ ∧
      ∀ b ∈ bs₂, b ∈ bs' := by
  induction clauses generalizing bs resolved with
  | nil =>
    obtain ⟨rfl, -⟩ := Prod.mk.inj (Except.ok.inj hok)
    exact absurd hc List.not_mem_nil
  | cons c' clauses ih =>
    obtain ⟨first, bs₁, rest, hfirst, hrest, rfl⟩ := resolveClauses_cons_eq_ok_iff.1 hok
    obtain ⟨rfl, hsteps⟩ := (resolveClause_eq_ok_iff h).1 hfirst
    rcases List.mem_cons.1 hc with rfl | hc
    · exact ⟨bs, bs₁, h, hsteps, subset_of_resolveClauses (hsteps.scope h) hrest⟩
    · exact ih (hsteps.scope h) hrest hc

/-- A name in clauses whose negated ones have their names before occurs in a positive one. -/
theorem exists_positive_of_negatedBound {clauses before after : List Clause}
    (h : NegatedBound [] clauses) (hsplit : clauses = before ++ after)
    (hname : ∃ c ∈ before, name ∈ c.names kind) :
    ∃ c ∈ before, c.negated = false ∧ name ∈ c.names kind := by
  induction before using List.reverseRecOn generalizing after with
  | nil =>
    obtain ⟨c, hc, -⟩ := hname
    exact absurd hc List.not_mem_nil
  | append_singleton before last ih =>
    rw [List.append_assoc, List.singleton_append] at hsplit
    have hbefore (hname : ∃ c ∈ before, name ∈ c.names kind) :
        ∃ c ∈ before ++ [last], c.negated = false ∧ name ∈ c.names kind := by
      obtain ⟨c, hc, hpositive⟩ := ih hsplit hname
      exact ⟨c, List.mem_append_left _ hc, hpositive⟩
    obtain ⟨c, hc, hname⟩ := hname
    rcases List.mem_append.1 hc with hc | hc
    · exact hbefore ⟨c, hc, hname⟩
    · obtain rfl := List.mem_singleton.1 hc
      cases hnegated : c.negated with
      | false => exact ⟨c, List.mem_concat_self, hnegated, hname⟩
      | true =>
        rcases h before c after hsplit hnegated kind name hname with ⟨b, hb, -⟩ | hearlier
        · exact absurd hb List.not_mem_nil
        · exact hbefore hearlier

namespace Pattern

variable {p : Pattern}

theorem resolve_eq_ok_iff {r : Resolution} :
    p.resolve = .ok r ↔ ∃ clauses bindings,
      Resolution.resolveClauses [] p.clauses = .ok (clauses, bindings) ∧
        (p.clauses ≠ [] → ∃ c ∈ p.clauses, c.negated = false) ∧
        r = { pattern := p, clauses, bindings, outputs := bindings.filter Binding.visible } := by
  have hpositive {clauses : List ResolvedClause} {bindings : List Binding}
      (hok : Resolution.resolveClauses [] p.clauses = .ok (clauses, bindings)) :
      (!clauses.isEmpty && clauses.all ResolvedClause.negated) = false ↔
        (p.clauses ≠ [] → ∃ c ∈ p.clauses, c.negated = false) := by
    have hmap := map_clause_of_resolveClauses .nil hok
    have hall : clauses.all ResolvedClause.negated = p.clauses.all Clause.negated := by
      rw [← hmap, List.all_map]
      rfl
    have hempty : clauses.isEmpty = p.clauses.isEmpty := by rw [← hmap, List.isEmpty_map]
    rw [hall, hempty, Bool.and_eq_false_imp, Bool.not_eq_true', List.isEmpty_eq_false_iff]
    refine imp_congr_right fun _ => ?_
    rw [← Bool.not_eq_true, List.all_eq_true, not_forall₂]
    simp only [Bool.not_eq_true, exists_prop]
  rw [resolve, bind_eq_ok_iff]
  constructor
  · rintro ⟨⟨clauses, bindings⟩, hok, hr⟩
    simp only at hr
    split at hr
    · exact absurd hr nofun
    · next h =>
      exact ⟨clauses, bindings, hok, (hpositive hok).1 (Bool.not_eq_true _ ▸ h),
        (Except.ok.inj hr).symm⟩
  · rintro ⟨clauses, bindings, hok, hpos, rfl⟩
    refine ⟨(clauses, bindings), hok, ?_⟩
    simp only [(hpositive hok).2 hpos]
    rfl

/-- A pattern is well bound when its names resolve and its first clause is positive. -/
theorem wellBound_iff :
    p.WellBound ↔ (∃ r, p.resolve = .ok r) ∧
      ∀ c, p.clauses.head? = some c → c.negated = false := by
  have hresolve : (∃ r, p.resolve = .ok r) ↔
      (p.clauses ≠ [] → ∃ c ∈ p.clauses, c.negated = false) ∧
        OneKind (fun kind name => ∃ c ∈ p.clauses, name ∈ c.names kind) ∧
          NegatedBound [] p.clauses := by
    have hclauses := exists_resolveClauses_iff p.clauses .nil
    have hnil : ∀ kind name, ¬Bound [] kind name :=
      fun kind name ⟨b, hb, _⟩ => absurd hb List.not_mem_nil
    simp only [hnil, false_or] at hclauses
    rw [← hclauses]
    constructor
    · rintro ⟨r, hr⟩
      obtain ⟨clauses, bindings, hok, hpos, -⟩ := resolve_eq_ok_iff.1 hr
      exact ⟨hpos, clauses, bindings, hok⟩
    · rintro ⟨hpos, clauses, bindings, hok⟩
      exact ⟨_, resolve_eq_ok_iff.2 ⟨clauses, bindings, hok, hpos, rfl⟩⟩
  rw [hresolve]
  constructor
  · intro h
    have hone : OneKind fun kind name => ∃ c ∈ p.clauses, name ∈ c.names kind := by
      intro name kind kind' huse huse'
      cases kind <;> cases kind'
      · rfl
      · exact absurd huse' (h.one_kind name huse)
      · exact absurd huse (h.one_kind name huse')
      · rfl
    refine ⟨⟨fun hne => ?_, hone, ?_⟩, h.anchored⟩
    · obtain ⟨c, clauses, hcons⟩ := List.exists_cons_of_ne_nil hne
      exact ⟨c, hcons ▸ List.mem_cons_self, h.anchored c (hcons ▸ rfl)⟩
    · intro before c after hsplit hnegated kind name hname
      obtain ⟨c', hc', -, kind', hname'⟩ := h.bound before c after hsplit hnegated kind name hname
      have hmem : c' ∈ p.clauses := hsplit ▸ List.mem_append_left _ hc'
      have hmem' : c ∈ p.clauses := hsplit ▸ List.mem_append_right _ List.mem_cons_self
      obtain rfl := hone name kind kind' ⟨c, hmem', hname⟩ ⟨c', hmem, hname'⟩
      exact .inr ⟨c', hc', hname'⟩
  · rintro ⟨⟨-, hone, hneg⟩, hanchored⟩
    refine ⟨fun name hvertex hedge => ?_, fun before c after hsplit hnegated kind name hname => ?_,
      hanchored⟩
    · exact absurd (hone name _ _ hvertex hedge) nofun
    · have hearlier := (hneg before c after hsplit hnegated kind name hname).resolve_left
        fun ⟨b, hb, _⟩ => absurd hb List.not_mem_nil
      obtain ⟨c', hc', hpositive, hname'⟩ := exists_positive_of_negatedBound hneg hsplit hearlier
      exact ⟨c', hc', hpositive, kind, hname'⟩

end Pattern

end GraphMotif
