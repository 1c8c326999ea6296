import GraphMotif.Proofs.Value.Rounding
import Mathlib.Data.String.Basic

/-!
# Order of values

Quantities and texts are ordered linearly. So two values that have an order have the opposite one
the other way round, and they are the same exactly if neither is less.
-/

namespace GraphMotif

namespace Quantity

theorem compare_finite (m n : Int) : (finite m).compare (finite n) = Ord.compare m n :=
  (LinearOrder.compare_eq_compareOfLessAndEq m n).symm

theorem compare_swap (p q : Quantity) : (p.compare q).swap = q.compare p := by
  cases p with
  | below => cases q <;> rfl
  | above => cases q <;> rfl
  | finite m =>
    cases q with
    | below => rfl
    | above => rfl
    | finite n => rw [compare_finite, compare_finite, ← Std.OrientedCmp.eq_swap]

theorem compare_eq_iff {p q : Quantity} : p.compare q = .eq ↔ p = q := by
  cases p with
  | below => cases q <;> simp [compare]
  | above => cases q <;> simp [compare]
  | finite m =>
    cases q with
    | below => simp [compare]
    | above => simp [compare]
    | finite n => rw [compare_finite, compare_eq_iff_eq, finite.injEq]

end Quantity

namespace Value

theorem compareText_eq (s t : String) : compareText s t = Ord.compare s t :=
  (LinearOrder.compare_eq_compareOfLessAndEq s t).symm

/-- Values that are not two texts are ordered as their quantities are. -/
theorem compare?_of_not_texts {a b : Value} (h : ∀ s t, a = text s → b ≠ text t) :
    a.compare? b = a.quantity?.bind fun p => b.quantity?.map p.compare := by
  unfold compare?
  split
  · exact absurd rfl (h _ _ rfl)
  · cases a.quantity? with
    | none => rfl
    | some p => cases b.quantity? <;> rfl

/-- Two values are two texts, or their order is that of their quantities either way round. -/
theorem texts_or_compare?_eq (a b : Value) :
    (∃ s t, a = text s ∧ b = text t) ∨
      (a.compare? b = (a.quantity?.bind fun p => b.quantity?.map p.compare) ∧
        b.compare? a = (b.quantity?.bind fun q => a.quantity?.map q.compare)) := by
  by_cases h : ∃ s t, a = text s ∧ b = text t
  · exact .inl h
  · exact .inr ⟨compare?_of_not_texts fun s t hs ht => h ⟨s, t, hs, ht⟩,
      compare?_of_not_texts fun t s ht hs => h ⟨s, t, hs, ht⟩⟩

/-- Turning two values around turns their order around. -/
theorem compare?_swap (a b : Value) : b.compare? a = (a.compare? b).map Ordering.swap := by
  rcases texts_or_compare?_eq a b with ⟨s, t, rfl, rfl⟩ | ⟨hab, hba⟩
  · simp only [compare?, Option.map_some, compareText_eq, ← Std.OrientedCmp.eq_swap]
  · rw [hab, hba]
    cases a.quantity? with
    | none => cases b.quantity? <;> rfl
    | some p =>
      cases b.quantity? with
      | none => rfl
      | some q => exact congrArg some (p.compare_swap q).symm

/-- Values that have an order are the same exactly if neither is less. -/
theorem same_iff_of_compare? {a b : Value} {o : Ordering} (h : a.compare? b = some o) :
    a.same b = true ↔ o = .eq := by
  rw [same_iff]
  rcases texts_or_compare?_eq a b with ⟨s, t, rfl, rfl⟩ | ⟨hab, -⟩
  · obtain rfl := Option.some.inj h
    rw [compareText_eq, compare_eq_iff_eq]
    exact ⟨fun ⟨_, _, hkey⟩ => Key.text.inj hkey, fun heq => ⟨rfl, rfl, congrArg Key.text heq⟩⟩
  · rw [hab] at h
    obtain ⟨p, hp, h⟩ := Option.bind_eq_some_iff.1 h
    obtain ⟨q, hq, rfl⟩ := Option.map_eq_some_iff.1 h
    have hnull {v : Value} {q : Quantity} (hq : v.key = .number q) : v.isNull = false := by
      rw [← Bool.not_eq_true, ← key_eq_null_iff, hq]
      exact nofun
    rw [← key_eq_number_iff] at hp hq
    rw [hp, hq, hnull hp, hnull hq, Quantity.compare_eq_iff, Key.number.injEq]
    exact ⟨fun ⟨_, _, heq⟩ => heq, fun heq => ⟨rfl, rfl, heq⟩⟩

end Value

end GraphMotif
