import GraphMotif.Proofs.Value.Equality

/-!
# Rounding keeps what is the same

An integer that is the same as a truth value or a binary64 number is not changed by rounding it to
such a number. So values of one normal form meet the cells of any column alike.
-/

namespace GraphMotif

namespace Binary64

/-- Rounding changes no number of quanta that is representable. -/
theorem roundUnits_of_representable {units : Nat} (h : Representable units) :
    roundUnits units 1 = units := by
  have hrest : units % 2 ^ (units.log2 - 52) = 0 := Nat.mod_eq_zero_of_dvd h.2
  simp only [roundUnits, roundHalfEven, Nat.div_one, Nat.one_mul, hrest, Nat.mul_zero]
  rw [if_pos (Nat.two_pow_pos _)]
  exact Nat.div_mul_cancel h.2

/-- An integer of a representable quantity is rounded to a number of that quantity. -/
theorem quantity?_ofInt {n : Int} (h : Representable (n.natAbs * 2 ^ quantumBits)) :
    (ofInt n).quantity? = some (.finite (n * 2 ^ quantumBits)) := by
  have hunits := roundUnits_of_representable h
  have hlt : roundUnits (n.natAbs * 2 ^ quantumBits) 1 < 2 ^ overflowBits := by
    rw [hunits]
    exact h.1
  unfold ofInt ofRatio
  rw [dif_pos hlt]
  refine congrArg (fun quanta => some (Quantity.finite quanta)) ?_
  have hcast : ((n.natAbs * 2 ^ quantumBits : Nat) : Int) = (n.natAbs : Int) * 2 ^ quantumBits := by
    rw [Int.natCast_mul, Int.natCast_pow]
    rfl
  rw [hunits, hcast]
  by_cases hneg : n < 0
  · rw [if_pos (decide_eq_true hneg), ← Int.neg_mul, Int.ofNat_natAbs_of_nonpos (by omega),
      Int.neg_neg]
  · rw [if_neg (by simpa using hneg), Int.natAbs_of_nonneg (by omega)]

end Binary64

namespace Value

theorem key_eq_number_iff {v : Value} {q : Quantity} : v.key = .number q ↔ v.quantity? = some q := by
  cases v with
  | text s => exact iff_of_false (by rintro ⟨⟩) (by rintro ⟨⟩)
  | _ =>
    simp only [key]
    split
    · next q' hq =>
      rw [hq, Key.number.injEq, Option.some.injEq]
    · next hnone =>
      rw [hnone]
      exact iff_of_false (by rintro ⟨⟩) (by rintro ⟨⟩)

theorem toFloat_int (n : Int) : (int n).toFloat = float (.ofInt n) := rfl

theorem quantity?_float (x : Binary64) : (float x).quantity? = x.quantity? := rfl

theorem key_int (n : Int) : (int n).key = .number (.finite (n * 2 ^ quantumBits)) := rfl

/-- An integer that is the same as something else is of a representable quantity. -/
theorem representable_of_key_eq {n : Int} {v : Value} (h : (int n).key = v.key)
    (hv : v.toFloat = v) : Representable (n.natAbs * 2 ^ quantumBits) := by
  have hquantity : v.quantity? = some (.finite (n * 2 ^ quantumBits)) :=
    key_eq_number_iff.1 (h.symm.trans (key_int n))
  have hnatAbs {m : Int} (hm : m = n * 2 ^ quantumBits) : m.natAbs = n.natAbs * 2 ^ quantumBits := by
    have htwo : Int.natAbs 2 = 2 := rfl
    rw [hm, Int.natAbs_mul, Int.natAbs_pow, htwo]
  cases v with
  | null => cases hquantity
  | text s => cases hquantity
  | int m => cases hv
  | bool b =>
    have hm := hnatAbs (Quantity.finite.inj (Option.some.inj hquantity))
    rw [← hm]
    cases b <;> decide +kernel
  | float x =>
    cases x with
    | nan => cases hquantity
    | infinity negative => cases negative <;> cases hquantity
    | finite negative units hrepresentable =>
      have hm := hnatAbs (Quantity.finite.inj (Option.some.inj hquantity))
      rw [← hm]
      cases negative with
      | true => rwa [if_pos rfl, Int.natAbs_neg, Int.natAbs_natCast]
      | false => rwa [if_neg Bool.false_ne_true, Int.natAbs_natCast]

/-- Rounding the integers among two values of one normal form leaves them of one normal form. -/
theorem key_toFloat_congr {a b : Value} (h : a.key = b.key) : a.toFloat.key = b.toFloat.key := by
  have hint {n : Int} {v : Value} (hkey : (int n).key = v.key) (hv : v.toFloat = v) :
      (int n).toFloat.key = v.toFloat.key := by
    have hrounded : (int n).toFloat.key = .number (.finite (n * 2 ^ quantumBits)) := by
      rw [toFloat_int, key_eq_number_iff, quantity?_float]
      exact Binary64.quantity?_ofInt (representable_of_key_eq hkey hv)
    exact hrounded.trans ((key_int n).symm.trans (hkey.trans (congrArg key hv.symm)))
  by_cases ha : a.toFloat = a
  · by_cases hb : b.toFloat = b
    · rw [ha, hb]
      exact h
    · cases b with
      | int n => exact (hint h.symm ha).symm
      | _ => exact absurd rfl hb
  · cases a with
    | int m =>
      by_cases hb : b.toFloat = b
      · exact hint h hb
      · cases b with
        | int n =>
          have hquanta := Quantity.finite.inj (Key.number.inj h)
          have hone : (2 ^ quantumBits : Int) ≠ 0 := Int.ne_of_gt (Int.pow_pos (by decide))
          rw [Int.eq_of_mul_eq_mul_right hone hquanta]
        | _ => exact absurd rfl hb
    | _ => exact absurd rfl ha

theorem isNull_congr {a b : Value} (h : a.key = b.key) : a.isNull = b.isNull := by
  rw [Bool.eq_iff_iff, ← key_eq_null_iff, ← key_eq_null_iff, h]

/-- What is the same depends only on normal forms. -/
theorem same_congr {a a' b b' : Value} (h : a.key = a'.key) (h' : b.key = b'.key) :
    a.same b = a'.same b' := by
  rw [same, same, isNull_congr h, h, h']

/-- Two values are the same or both null exactly if they have one normal form. -/
theorem same_or_null_iff {a b : Value} :
    (a.same b || (a.isNull && b.isNull)) = true ↔ a.key = b.key := by
  rw [Bool.or_eq_true, Bool.and_eq_true, same_iff]
  constructor
  · rintro (⟨-, -, hkey⟩ | ⟨ha, hb⟩)
    · exact hkey
    · rw [key_eq_null_iff.2 ha, key_eq_null_iff.2 hb]
  · intro hkey
    have hnull := isNull_congr hkey
    cases ha : a.isNull with
    | true => exact .inr ⟨rfl, hnull.symm.trans ha⟩
    | false => exact .inl ⟨rfl, hnull.symm.trans ha, hkey⟩

end Value

namespace ColumnKind

/-- Cells of one normal form are of one where they meet another column. -/
theorem key_align_congr (kind other : ColumnKind) {a b : Value} (h : a.key = b.key) :
    (kind.align other a).key = (kind.align other b).key := by
  unfold align
  split
  · exact Value.key_toFloat_congr h
  · exact h

/-- What a cell is equal to depends only on normal forms. -/
theorem equal_congr_right (kind kind' : ColumnKind) (a : Value) {b b' : Value}
    (h : b.key = b'.key) : kind.equal kind' a b = kind.equal kind' a b' :=
  Value.same_congr rfl (kind'.key_align_congr kind h)

/-- A cell that is not changed by being rounded keeps its normal form where it meets other
columns. -/
theorem key_align (kind other : ColumnKind) {v : Value} (h : v.toFloat.key = v.key) :
    (kind.align other v).key = v.key := by
  unfold align
  split
  · exact h
  · rfl

/-- Cells that are not changed by being rounded meet by value. -/
theorem equal_eq_same {kind kind' : ColumnKind} {a b : Value} (ha : a.toFloat.key = a.key)
    (hb : b.toFloat.key = b.key) : kind.equal kind' a b = a.same b :=
  Value.same_congr (kind.key_align kind' ha) (kind'.key_align kind hb)

end ColumnKind

end GraphMotif
