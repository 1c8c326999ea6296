import GraphMotif.Proofs.Except
import GraphMotif.Proofs.Pattern.Names
import GraphMotif.Proofs.Plan.Tags
import GraphMotif.Resolution

/-!
# Scopes

The bindings introduced so far are a scope: each carries its number in its column, and no two carry
one name. Resolving a slot keeps this; it succeeds when its name is bound for its kind, or for no
kind in a positive clause. So resolving clauses succeeds exactly when no name stands for two kinds
and the names of negated clauses are bound before.
-/

namespace GraphMotif

/-- The column of a binding is made of its kind and its number. -/
def Binding.Tagged (b : Binding) : Prop := b.column = b.kind.letter ++ toString b.rank

/-- Bindings numbered in order, with one binding at most for a name. -/
structure Scope (bs : List Binding) : Prop where
  tagged : ∀ b ∈ bs, b.Tagged
  rank : ∀ (k : Nat) (b : Binding), bs[k]? = some b → b.rank = k
  name_inj : ∀ b ∈ bs, ∀ b' ∈ bs, ∀ name, b.name = some name → b'.name = some name → b = b'

/-- A name is bound to an element of a kind. -/
def Bound (bs : List Binding) (kind : Element) (name : String) : Prop :=
  ∃ b ∈ bs, b.kind = kind ∧ b.name = some name

namespace Scope

variable {bs bs' : List Binding} {b b' : Binding} {kind kind' : Element} {name : String}

theorem nil : Scope [] where
  tagged _ h := absurd h List.not_mem_nil
  rank _ _ h := absurd h nofun
  name_inj _ h := absurd h List.not_mem_nil

/-- Bindings of one column are one binding. -/
theorem column_inj (h : Scope bs) (hb : b ∈ bs) (hb' : b' ∈ bs) (heq : b.column = b'.column) :
    b = b' := by
  rw [h.tagged b hb, h.tagged b' hb', Element.letter_append_inj] at heq
  obtain ⟨k, hk⟩ := List.mem_iff_getElem?.1 hb
  obtain ⟨k', hk'⟩ := List.mem_iff_getElem?.1 hb'
  rw [h.rank k b hk, h.rank k' b' hk'] at heq
  rw [heq.2, hk'] at hk
  exact (Option.some.inj hk).symm

theorem isTag_column (h : Scope bs) (hb : b ∈ bs) : IsTag b.column := by
  rw [h.tagged b hb]
  exact Element.isTag_letter_append b.kind b.rank

theorem rank_lt (h : Scope bs) (hb : b ∈ bs) : b.rank < bs.length := by
  obtain ⟨k, hk⟩ := List.mem_iff_getElem?.1 hb
  rw [h.rank k b hk]
  exact (List.getElem?_eq_some_iff.1 hk).1

/-- A name is bound to one kind of element. -/
theorem kind_unique (h : Scope bs) (hbound : Bound bs kind name) (hbound' : Bound bs kind' name) :
    kind = kind' := by
  obtain ⟨b, hb, rfl, hname⟩ := hbound
  obtain ⟨b', hb', rfl, hname'⟩ := hbound'
  rw [h.name_inj b hb b' hb' name hname hname']

theorem find?_eq_some (h : Scope bs) (hb : b ∈ bs) (hname : b.name = some name) :
    Binding.find? bs name = some b := by
  cases hfind : Binding.find? bs name with
  | none => exact absurd hname (by simpa using List.find?_eq_none.1 hfind b hb)
  | some b' =>
    have hname' : b'.name = some name := by simpa using List.find?_some hfind
    rw [h.name_inj b hb b' (List.mem_of_find?_eq_some hfind) name hname hname']

theorem find?_eq_none_iff : Binding.find? bs name = none ↔ ∀ kind, ¬Bound bs kind name := by
  rw [Binding.find?, List.find?_eq_none]
  constructor
  · rintro h kind ⟨b, hb, -, hname⟩
    exact h b hb (decide_eq_true hname)
  · intro h b hb hname
    exact h b.kind ⟨b, hb, rfl, of_decide_eq_true hname⟩

theorem mem_of_find?_eq_some (h : Binding.find? bs name = some b) : b ∈ bs ∧ b.name = some name :=
  ⟨List.mem_of_find?_eq_some h, by simpa using List.find?_some h⟩

/-- A scope grows by a fresh binding of a name that is not bound, or of none. -/
theorem concat_fresh (h : Scope bs) (kind : Element) {slot : Slot}
    (hslot : ∀ name, slot = some name → ∀ kind', ¬Bound bs kind' name) :
    Scope (bs ++ [Binding.fresh bs kind slot]) where
  tagged b hb := by
    rcases List.mem_append.1 hb with hb | hb
    · exact h.tagged b hb
    · rw [List.mem_singleton.1 hb]
      rfl
  rank k b hb := by
    rcases Nat.lt_or_ge k bs.length with hk | hk
    · rw [List.getElem?_append_left hk] at hb
      exact h.rank k b hb
    · rw [List.getElem?_append_right hk] at hb
      obtain ⟨hzero, rfl⟩ := List.getElem?_eq_some_iff.1 hb
      have hk' : k = bs.length := by
        rw [List.length_singleton] at hzero
        omega
      simp [hk', Binding.fresh]
  name_inj b hb b' hb' name hname hname' := by
    rcases List.mem_append.1 hb with hb | hb <;> rcases List.mem_append.1 hb' with hb' | hb'
    · exact h.name_inj b hb b' hb' name hname hname'
    · rw [List.mem_singleton.1 hb'] at hname'
      exact absurd ⟨b, hb, rfl, hname⟩ (hslot name hname' b.kind)
    · rw [List.mem_singleton.1 hb] at hname
      exact absurd ⟨b', hb', rfl, hname'⟩ (hslot name hname b'.kind)
    · rw [List.mem_singleton.1 hb, List.mem_singleton.1 hb']

theorem bound_concat_fresh (bs : List Binding) (kind kind' : Element) (slot : Slot)
    (name : String) :
    Bound (bs ++ [Binding.fresh bs kind slot]) kind' name ↔
      Bound bs kind' name ∨ (kind', some name) = (kind, slot) := by
  simp only [Bound, List.mem_append, List.mem_singleton, or_and_right, exists_or,
    exists_eq_left, Binding.fresh, Prod.mk.injEq]
  exact or_congr_right (and_congr eq_comm eq_comm)

end Scope

end GraphMotif
