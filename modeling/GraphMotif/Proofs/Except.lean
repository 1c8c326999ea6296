/-!
# Computations that may fail

When a step after another one, a step for every item of a list and a check of every item succeed,
and what can be said of a computation that succeeds exactly under a condition.
-/

namespace GraphMotif

variable {ε α β : Type}

theorem bind_eq_ok_iff {x : Except ε α} {f : α → Except ε β} {b : β} :
    x >>= f = .ok b ↔ ∃ a, x = .ok a ∧ f a = .ok b := by
  cases x with
  | error e => exact ⟨fun h => absurd h nofun, fun ⟨_, h, _⟩ => absurd h nofun⟩
  | ok a => exact ⟨fun h => ⟨a, rfl, h⟩, fun ⟨_, h, h'⟩ => Except.ok.inj h ▸ h'⟩

theorem mapError_eq_ok_iff {ε' : Type} {f : ε → ε'} {x : Except ε α} {a : α} :
    x.mapError f = .ok a ↔ x = .ok a := by
  cases x with
  | error e => exact iff_of_false nofun nofun
  | ok a' => exact ⟨fun h => congrArg _ (Except.ok.inj h), fun h => congrArg _ (Except.ok.inj h)⟩

theorem mapM_eq_ok_map {f : α → Except ε β} {g : α → β} {xs : List α}
    (h : ∀ x ∈ xs, f x = .ok (g x)) : xs.mapM f = .ok (xs.map g) := by
  induction xs with
  | nil => rfl
  | cons x xs ih =>
    obtain ⟨hx, hxs⟩ := List.forall_mem_cons.1 h
    rw [List.mapM_cons, hx, ih hxs]
    rfl

theorem forM_eq_ok_iff {f : α → Except ε Unit} {xs : List α} :
    xs.forM f = .ok () ↔ ∀ x ∈ xs, f x = .ok () := by
  induction xs with
  | nil => exact ⟨fun _ _ h => absurd h List.not_mem_nil, fun _ => rfl⟩
  | cons x xs ih =>
    rw [List.forM_eq_forM, List.forM_cons, bind_eq_ok_iff, List.forall_mem_cons,
      ← List.forM_eq_forM, ih]
    exact ⟨fun ⟨_, hx, hxs⟩ => ⟨hx, hxs⟩, fun ⟨hx, hxs⟩ => ⟨(), hx, hxs⟩⟩

/-- Two computations have the same result or both fail. -/
def SameResult (x y : Except ε α) : Prop :=
  (∃ a, x = .ok a ∧ y = .ok a) ∨ ((∃ e, x = .error e) ∧ ∃ e, y = .error e)

/-! ## Success under a condition -/

/-- A computation succeeds exactly under a condition, and then with a result that has a property. -/
def SucceedsIff (x : Except ε α) (cond : Prop) (post : α → Prop) : Prop :=
  (cond ∧ ∃ a, x = .ok a ∧ post a) ∨ (¬cond ∧ ∃ e, x = .error e)

namespace SucceedsIff

variable {x : Except ε α} {cond cond' : Prop} {post post' : α → Prop}

theorem ok {a : α} (h : post a) : SucceedsIff (.ok a : Except ε α) True post :=
  .inl ⟨trivial, a, rfl, h⟩

theorem of_iff (h : SucceedsIff x cond post) (hiff : cond ↔ cond') : SucceedsIff x cond' post :=
  propext hiff ▸ h

theorem of_cond (h : SucceedsIff x cond post) (hcond : cond) : ∃ a, x = .ok a ∧ post a :=
  h.elim And.right fun ⟨hnot, _⟩ => absurd hcond hnot

theorem of_ok (h : SucceedsIff x cond post) {a : α} (hx : x = .ok a) : cond ∧ post a := by
  rcases h with ⟨hcond, a', hx', hpost⟩ | ⟨-, e, he⟩
  · obtain rfl := Except.ok.inj (hx'.symm.trans hx)
    exact ⟨hcond, hpost⟩
  · exact absurd (he.symm.trans hx) nofun

theorem map {f : α → β} {final : β → Prop} (h : SucceedsIff x cond post)
    (hf : ∀ a, post a → final (f a)) : SucceedsIff (x.map f) cond final := by
  rcases h with ⟨hcond, a, rfl, hpost⟩ | ⟨hcond, e, rfl⟩
  · exact .inl ⟨hcond, f a, rfl, hf a hpost⟩
  · exact .inr ⟨hcond, e, rfl⟩

/-- Computations that succeed under one condition and with one result are alike. -/
theorem sameResult {y : Except ε α} {a : α} (hx : SucceedsIff x cond (· = a))
    (hy : SucceedsIff y cond (· = a)) : SameResult x y := by
  rcases hx with ⟨hcond, _, hx, rfl⟩ | ⟨hcond, hx⟩
  · rcases hy with ⟨-, _, hy, rfl⟩ | ⟨hnot, -⟩
    · exact .inl ⟨_, hx, hy⟩
    · exact absurd hcond hnot
  · rcases hy with ⟨hcond', -⟩ | ⟨-, hy⟩
    · exact absurd hcond' hcond
    · exact .inr ⟨hx, hy⟩

theorem bind {f : α → Except ε β} {final : β → Prop} (h : SucceedsIff x cond post)
    (hf : ∀ a, post a → SucceedsIff (f a) cond' final) :
    SucceedsIff (x >>= f) (cond ∧ cond') final := by
  rcases h with ⟨hcond, a, rfl, hpost⟩ | ⟨hcond, e, rfl⟩
  · rcases hf a hpost with ⟨hcond', b, hb, hfinal⟩ | ⟨hcond', e, he⟩
    · exact .inl ⟨⟨hcond, hcond'⟩, b, hb, hfinal⟩
    · exact .inr ⟨fun h => hcond' h.2, e, he⟩
  · exact .inr ⟨fun h => hcond h.1, e, rfl⟩

/-- What is made of a result cannot fail. -/
theorem bind_pure {f : α → β} {final : β → Prop} (h : SucceedsIff x cond post)
    (hf : ∀ a, post a → final (f a)) : SucceedsIff (x >>= fun a => pure (f a)) cond final :=
  (h.bind fun a ha => ok (hf a ha)).of_iff (and_iff_left trivial)

/-- A step for every item succeeds exactly if all steps do. -/
theorem mapM {f : α → Except ε β} {g : α → β} {cond : α → Prop} {xs : List α}
    (h : ∀ x ∈ xs, SucceedsIff (f x) (cond x) (· = g x)) :
    SucceedsIff (xs.mapM f) (∀ x ∈ xs, cond x) (· = xs.map g) := by
  induction xs with
  | nil => exact .inl ⟨fun _ hx => absurd hx List.not_mem_nil, [], rfl, rfl⟩
  | cons x xs ih =>
    obtain ⟨hx, hxs⟩ := List.forall_mem_cons.1 h
    rw [List.mapM_cons]
    refine (hx.bind fun y hy => (ih hxs).bind_pure fun ys hys => ?_).of_iff
      List.forall_mem_cons.symm
    rw [hy, hys, List.map_cons]

end SucceedsIff

end GraphMotif
