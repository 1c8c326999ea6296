import GraphMotif.Proofs.Value.Rounding
import Mathlib.Data.List.Nodup

/-!
# Repeated values

The values that occur in a list, each of them once, and those of them that occur more than once.
Nulls are the same as nothing, so they are never repeated.
-/

namespace GraphMotif.Value

variable {v w : Value} {seen vs : List Value}

/-! ## Each value once -/

theorem mem_of_mem_distinctAfter (h : v ∈ distinctAfter seen vs) : v ∈ vs := by
  induction vs generalizing seen with
  | nil => exact h
  | cons w vs ih =>
    rw [distinctAfter] at h
    split at h
    · exact List.mem_cons_of_mem _ (ih h)
    · rcases List.mem_cons.1 h with rfl | h
      · exact List.mem_cons_self
      · exact List.mem_cons_of_mem _ (ih h)

/-- A value was seen, or it is the same as one that is kept. -/
theorem isIn_or_exists_mem_distinctAfter (hv : v ∈ vs) (hnull : v.isNull = false) :
    v.isIn seen = true ∨ ∃ w ∈ distinctAfter seen vs, v.same w = true := by
  induction vs generalizing seen with
  | nil => exact absurd hv List.not_mem_nil
  | cons w vs ih =>
    rw [distinctAfter]
    split
    · next hseen =>
      rcases List.mem_cons.1 hv with rfl | hv
      · exact .inl hseen
      · exact ih hv
    · rcases List.mem_cons.1 hv with rfl | hv
      · exact .inr ⟨v, List.mem_cons_self, same_self hnull⟩
      · -- what is the same as the value just kept counts as seen from here on
        rcases @ih (w :: seen) hv with hseen | ⟨u, hu, hsame⟩
        · rw [isIn, List.any_cons, Bool.or_eq_true] at hseen
          rcases hseen with hsame | hseen
          · exact .inr ⟨w, List.mem_cons_self, hsame⟩
          · exact .inl hseen
        · exact .inr ⟨u, List.mem_cons_of_mem _ hu, hsame⟩

theorem exists_mem_distinct (hv : v ∈ vs) (hnull : v.isNull = false) :
    ∃ w ∈ distinct vs, v.same w = true :=
  (isIn_or_exists_mem_distinctAfter hv hnull).resolve_left nofun

theorem isIn_congr (h : w.same v = true) (vs : List Value) : w.isIn vs = v.isIn vs :=
  congrArg vs.any (funext fun _ => same_congr (same_iff.1 h).2.2 rfl)

theorem isIn_cons (v : Value) (vs : List Value) : w.isIn (v :: vs) = (w.same v || w.isIn vs) := rfl

theorem isIn_iff_countP : w.isIn vs = true ↔ 0 < vs.countP w.same := by
  rw [isIn, List.any_eq_true, List.countP_pos_iff]

theorem isIn_distinct : w.isIn (distinct vs) = true ↔ w.isIn vs = true := by
  simp only [isIn, List.any_eq_true]
  constructor
  · exact fun ⟨v, hv, hsame⟩ => ⟨v, mem_of_mem_distinctAfter hv, hsame⟩
  · rintro ⟨v, hv, hsame⟩
    obtain ⟨u, hu, hsame'⟩ := exists_mem_distinct hv (same_iff.1 hsame).2.1
    obtain ⟨hnull, -, hkey⟩ := same_iff.1 hsame
    obtain ⟨-, hnull', hkey'⟩ := same_iff.1 hsame'
    exact ⟨u, hu, same_iff.2 ⟨hnull, hnull', hkey.trans hkey'⟩⟩

/-! ## Values that occur more than once -/

/-- A value is the same as a repeated one if it occurs twice, or once after it was seen. -/
theorem isIn_repeatedAfter (w : Value) (seen vs : List Value) :
    w.isIn (repeatedAfter seen vs) = true ↔
      (w.isIn seen = true ∧ w.isIn vs = true) ∨ 2 ≤ vs.countP w.same := by
  induction vs generalizing seen with
  | nil => simp [repeatedAfter, isIn]
  | cons v vs ih =>
    rw [repeatedAfter]
    cases hsame : w.same v with
    | true =>
      rw [← isIn_congr hsame, List.countP_cons_of_pos hsame]
      split
      · next hseen => simp [isIn_cons, hsame, hseen]
      · next hseen =>
        -- from here on the value is seen, so that one more occurrence is enough
        rw [ih, isIn_cons, hsame, Bool.true_or, isIn_iff_countP]
        simp only [hseen, Bool.false_eq_true, false_and, false_or, true_and]
        omega
    | false =>
      have hcount : (v :: vs).countP w.same = vs.countP w.same :=
        List.countP_cons_of_neg (by rw [hsame]; exact Bool.false_ne_true)
      rw [hcount, isIn_cons, hsame, Bool.false_or]
      split
      · rw [isIn_cons, hsame, Bool.false_or, ih]
      · rw [ih, isIn_cons, hsame, Bool.false_or]

theorem isIn_repeated : w.isIn (repeated vs) = true ↔ 2 ≤ vs.countP w.same := by
  rw [repeated, isIn_repeatedAfter]
  exact or_iff_right fun h => Bool.false_ne_true h.1

theorem mem_of_mem_repeatedAfter (h : v ∈ repeatedAfter seen vs) : v ∈ vs := by
  induction vs generalizing seen with
  | nil => exact h
  | cons w vs ih =>
    rw [repeatedAfter] at h
    split at h
    · rcases List.mem_cons.1 h with rfl | h
      · exact List.mem_cons_self
      · exact List.mem_cons_of_mem _ (ih h)
    · exact List.mem_cons_of_mem _ (ih h)

/-- The repeated values, each of them once. -/
def repeatedOnce (vs : List Value) : List Value := distinct (repeated vs)

theorem isIn_repeatedOnce : w.isIn (repeatedOnce vs) = true ↔ 2 ≤ vs.countP w.same :=
  isIn_distinct.trans isIn_repeated

theorem mem_of_mem_repeatedOnce (h : v ∈ repeatedOnce vs) : v ∈ vs :=
  mem_of_mem_repeatedAfter (mem_of_mem_distinctAfter h)

theorem two_le_countP_of_mem (hnull : ∀ v ∈ vs, v.isNull = false) (h : v ∈ repeatedOnce vs) :
    2 ≤ vs.countP v.same :=
  isIn_repeatedOnce.1
    (List.any_eq_true.2 ⟨v, h, same_self (hnull v (mem_of_mem_repeatedOnce h))⟩)

theorem countP_same (hnull : w.isNull = false) (vs : List Value) :
    vs.countP w.same = (vs.map key).count w.key := by
  rw [List.count_eq_countP, List.countP_map]
  refine List.countP_congr fun v _ => ?_
  rw [same, hnull, Bool.not_false, Bool.true_and, Function.comp_apply, beq_iff_eq, beq_iff_eq,
    eq_comm]

/-- Values none of which is null differ, or one of them is repeated. -/
theorem nodup_key_iff (hnull : ∀ v ∈ vs, v.isNull = false) :
    (vs.map key).Nodup ↔ repeatedOnce vs = [] := by
  rw [List.nodup_iff_count_le_one]
  constructor
  · intro hcount
    refine List.eq_nil_iff_forall_not_mem.2 fun v hv => ?_
    have htwice := two_le_countP_of_mem hnull hv
    rw [countP_same (hnull v (mem_of_mem_repeatedOnce hv))] at htwice
    exact absurd (hcount v.key) (by omega)
  · intro hnil k
    by_contra htwice
    have hcount : 0 < (vs.map key).count k := by omega
    obtain ⟨v, hv, rfl⟩ := List.mem_map.1 (List.count_pos_iff.1 hcount)
    rw [← countP_same (hnull v hv)] at htwice
    have hin : v.isIn (repeatedOnce vs) = true := isIn_repeatedOnce.2 (by omega)
    rw [hnil] at hin
    exact Bool.false_ne_true hin

theorem nodup_key_iff_pairwise (hnull : ∀ v ∈ vs, v.isNull = false) :
    (vs.map key).Nodup ↔ vs.Pairwise fun v w => v.same w = false := by
  rw [List.Nodup, List.pairwise_map]
  refine List.Pairwise.iff_of_mem fun {v w} hv _ => ?_
  rw [same, hnull v hv, Bool.not_false, Bool.true_and, beq_eq_false_iff_ne]

/-- Of values that differ none is repeated. -/
theorem not_two_le_countP (hnull : ∀ v ∈ vs, v.isNull = false)
    (hdiffer : vs.Pairwise fun v w => v.same w = false) (w : Value) : ¬2 ≤ vs.countP w.same := by
  rw [← isIn_repeatedOnce, (nodup_key_iff hnull).1 ((nodup_key_iff_pairwise hnull).2 hdiffer)]
  exact Bool.false_ne_true

end GraphMotif.Value
