import GraphMotif.Number.Shortest
import Mathlib.Algebra.Order.Ring.Nat
import Mathlib.Tactic.Linarith

/-!
# What rounds to a number

The rounding interval of a representable number holds quotients that round to it and nothing else.
Below a power of two the quotients have one binary digit less, so they are cut one place further
down; everywhere else the place is that of the number itself.
-/

namespace GraphMotif.Binary64

variable {num den units : Nat}

/-- A quotient is rounded to the whole number that is at most a half away, which is even if it is a
half away. -/
theorem roundHalfEven_eq {q : Nat} (hden : 0 < den) (hlow : 2 * (q * den) ≤ 2 * num + den)
    (hhigh : 2 * num ≤ 2 * (q * den) + den)
    (htie : q % 2 = 1 → 2 * (q * den) < 2 * num + den ∧ 2 * num < 2 * (q * den) + den) :
    roundHalfEven num den = q := by
  have hnum : num = num / den * den + num % den := (Nat.div_add_mod' num den).symm
  have hrest : num % den < den := Nat.mod_lt num hden
  simp only [roundHalfEven]
  generalize num / den = whole at hnum ⊢
  generalize num % den = rest at hnum hrest ⊢
  obtain rfl | rfl : q = whole ∨ q = whole + 1 := by
    have hle : q < whole + 2 := by
      by_contra! hle
      have := Nat.mul_le_mul_right den hle
      rw [Nat.add_mul] at this
      omega
    have hge : whole ≤ q := by
      by_contra! hge
      have := Nat.mul_le_mul_right den hge
      rw [Nat.succ_mul] at this
      omega
    omega
  · split
    · rfl
    · split <;> omega
  · rw [Nat.add_mul] at hlow hhigh htie
    split
    · omega
    · split <;> omega

namespace RoundingInterval

variable {i : RoundingInterval}

theorem contains_iff : i.contains num den = true ↔
    (i.low * den ≤ num ∧ num ≤ i.high * den) ∧
      (i.closed = false → i.low * den < num ∧ num < i.high * den) := by
  rw [contains]
  cases i.closed
  · simp only [Bool.false_eq_true, if_false, Bool.and_eq_true, decide_eq_true_eq, true_implies]
    exact ⟨fun h => ⟨⟨h.1.le, h.2.le⟩, h⟩, And.right⟩
  · simp

/-- Whether a quotient is in an interval does not depend on how it is written. -/
theorem contains_congr {num' den' : Nat} (hden : 0 < den) (hden' : 0 < den')
    (h : num * den' = num' * den) (hcontains : i.contains num den = true) :
    i.contains num' den' = true := by
  have hle (m : Nat) : m * den ≤ num ↔ m * den' ≤ num' := by
    rw [← Nat.mul_le_mul_right_iff hden', h, Nat.mul_right_comm, Nat.mul_le_mul_right_iff hden]
  have hge (m : Nat) : num ≤ m * den ↔ num' ≤ m * den' := by
    rw [← Nat.mul_le_mul_right_iff hden', h, Nat.mul_right_comm, Nat.mul_le_mul_right_iff hden]
  simp only [contains_iff, ← Nat.not_le, hle, hge] at hcontains ⊢
  exact hcontains

end RoundingInterval

/-- The binary place of the last digit that is kept of a number. -/
def place (units : Nat) : Nat := units.log2 - 52

theorem two_pow_place_le (hpos : units ≠ 0) : 2 ^ place units ≤ units :=
  (Nat.pow_le_pow_right (by decide) (Nat.sub_le ..)).trans (Nat.log2_self_le hpos)

/-- Cutting a quotient to its leading digits is rounding it at the place of the last of them. -/
theorem roundUnits_eq (num q : Nat) (hden : 0 < den)
    (hlow : 2 * (q * (den * 2 ^ place (num / den))) ≤ 2 * num + den * 2 ^ place (num / den))
    (hhigh : 2 * num ≤ 2 * (q * (den * 2 ^ place (num / den))) + den * 2 ^ place (num / den))
    (htie : q % 2 = 1 →
      2 * (q * (den * 2 ^ place (num / den))) < 2 * num + den * 2 ^ place (num / den) ∧
      2 * num < 2 * (q * (den * 2 ^ place (num / den))) + den * 2 ^ place (num / den)) :
    roundUnits num den = q * 2 ^ place (num / den) := by
  have hpos : 0 < den * 2 ^ place (num / den) := Nat.mul_pos hden (Nat.two_pow_pos _)
  show roundHalfEven num (den * 2 ^ place (num / den)) * 2 ^ place (num / den) = _
  rw [roundHalfEven_eq hpos hlow hhigh htie]

/-- A quotient between two powers of two has as many binary digits as the lower one. -/
theorem log2_div_eq {n : Nat} (hden : 0 < den) (hlow : 2 ^ n * den ≤ num)
    (hhigh : num < 2 ^ (n + 1) * den) : (num / den).log2 = n := by
  have hle : 2 ^ n ≤ num / den := (Nat.le_div_iff_mul_le hden).2 hlow
  have hpos : num / den ≠ 0 := Nat.ne_of_gt (Nat.lt_of_lt_of_le (Nat.two_pow_pos n) hle)
  rw [Nat.log2_eq_iff hpos]
  exact ⟨hle, (Nat.div_lt_iff_lt_mul hden).2 hhigh⟩

/-- A multiple of a power of two that is below a greater one is below it by a multiple. -/
theorem add_two_pow_le {m n : Nat} (hmn : m ≤ n) (hdvd : 2 ^ m ∣ units) (hlt : units < 2 ^ n) :
    units + 2 ^ m ≤ 2 ^ n := by
  have hdiff : 2 ^ m ∣ 2 ^ n - units := Nat.dvd_sub (Nat.pow_dvd_pow 2 hmn) hdvd
  have := Nat.le_of_dvd (Nat.sub_pos_of_lt hlt) hdiff
  omega

/-! ## The rounding interval -/

/-- The rounding interval reaches half a place up. -/
theorem high_eq (units : Nat) :
    (roundingInterval units).high = 2 * units + 2 ^ place units := rfl

/-- The rounding interval reaches at most half a place down. -/
theorem le_low (units : Nat) : 2 * units ≤ (roundingInterval units).low + 2 ^ place units := by
  have hbelow : 2 ^ (place units - 1) ≤ 2 ^ place units :=
    Nat.pow_le_pow_right (by decide) (Nat.sub_le _ 1)
  simp only [roundingInterval, place] at hbelow ⊢
  split <;> omega

/-- From a power of two the rounding interval reaches only a quarter of a place down. -/
theorem low_of_two_pow (h : units = 2 ^ units.log2) (hplace : 0 < place units) :
    (roundingInterval units).low = 2 * units - 2 ^ (place units - 1) := by
  simp only [roundingInterval]
  rw [if_pos ⟨h, hplace⟩]
  rfl

theorem closed_eq_false_iff {q : Nat} (h : units = q * 2 ^ place units) :
    (roundingInterval units).closed = false ↔ q % 2 = 1 := by
  have hq : units / 2 ^ place units = q := by
    rw [Nat.div_eq_iff_eq_mul_left (Nat.two_pow_pos _) ⟨q, h.trans (Nat.mul_comm ..)⟩]
    exact h
  show (units / 2 ^ place units % 2 == 0) = false ↔ _
  rw [hq, beq_eq_false_iff_ne]
  omega

/-- A quotient in the rounding interval that is cut at the place of the number rounds to it. -/
theorem roundUnits_of_place (hden : 0 < den) (hdvd : 2 ^ place units ∣ units)
    (hcontains : (roundingInterval units).contains (2 * num) den = true)
    (hplace : place (num / den) = place units) : roundUnits num den = units := by
  obtain ⟨⟨hlow, hhigh⟩, hstrict⟩ := RoundingInterval.contains_iff.1 hcontains
  obtain ⟨q, hq⟩ := exists_eq_mul_left_of_dvd hdvd
  rw [closed_eq_false_iff hq, high_eq, Nat.add_mul] at hstrict
  rw [high_eq, Nat.add_mul] at hhigh
  have hle := Nat.mul_le_mul_right den (le_low units)
  rw [Nat.add_mul] at hle
  have hunits : q * (den * 2 ^ place units) = units * den := by
    rw [Nat.mul_left_comm, ← hq, Nat.mul_comm]
  rw [Nat.mul_assoc, Nat.mul_comm (2 ^ place units)] at hhigh hstrict hle
  have heq := roundUnits_eq num q hden
  rw [hplace, hunits] at heq
  rw [heq (by omega) hhigh fun hodd => ?_, ← hq]
  exact ⟨by have := (hstrict hodd).1; omega, (hstrict hodd).2⟩

theorem place_eq_zero {n : Nat} (h : n < 2 ^ 53) : place n = 0 := by
  rw [place, Nat.sub_eq_zero_iff_le, ← Nat.lt_succ_iff]
  rcases Nat.eq_zero_or_pos n with rfl | hpos
  · decide
  · exact (Nat.log2_lt (Nat.ne_of_gt hpos)).2 h

/-- The rounding interval of a number reaches below the power of two that starts its binade only if
the number is that power. -/
theorem eq_two_pow_of_low_lt (hpos : units ≠ 0) (hdvd : 2 ^ place units ∣ units)
    (h : (roundingInterval units).low < 2 ^ (units.log2 + 1)) : units = 2 ^ units.log2 := by
  refine le_antisymm ?_ (Nat.log2_self_le hpos)
  by_contra! hlt
  have hdiff : 2 ^ place units ∣ units - 2 ^ units.log2 :=
    Nat.dvd_sub hdvd (Nat.pow_dvd_pow 2 (Nat.sub_le ..))
  have hle := Nat.le_of_dvd (Nat.sub_pos_of_lt hlt) hdiff
  have hlow := le_low units
  rw [Nat.pow_succ] at h
  omega

/-- A quotient below a power of two that is in its rounding interval rounds to it: it is cut one
place further down, to a multiple of two. -/
theorem roundUnits_of_below (hden : 0 < den) (htwo : units = 2 ^ units.log2)
    (hplace : 0 < place units)
    (hcontains : (roundingInterval units).contains (2 * num) den = true)
    (hbelow : num < units * den) : roundUnits num den = units := by
  obtain ⟨⟨hlow, -⟩, -⟩ := RoundingInterval.contains_iff.1 hcontains
  rw [low_of_two_pow htwo hplace] at hlow
  obtain ⟨n, hn⟩ : ∃ n, place units = n + 1 := ⟨place units - 1, by omega⟩
  have hunits : units = 2 ^ 53 * 2 ^ n := by
    rw [← Nat.pow_add]
    refine htwo.trans (congrArg (2 ^ ·) ?_)
    rw [place] at hn
    omega
  rw [hn, Nat.add_sub_cancel, Nat.sub_mul, hunits, Nat.mul_assoc, Nat.mul_assoc] at hlow
  rw [hunits, Nat.mul_assoc] at hbelow
  have hdigits : (num / den).log2 = 52 + n := by
    refine log2_div_eq hden ?_ ?_
    · rw [Nat.pow_add, Nat.mul_assoc]
      omega
    · rw [Nat.add_right_comm, Nat.pow_add, Nat.mul_assoc]
      exact hbelow
  have heq := roundUnits_eq num (2 ^ 53) hden
  rw [place, hdigits, Nat.add_sub_cancel_left, ← hunits, Nat.mul_comm den] at heq
  exact heq (by omega) (by omega) fun hodd => absurd hodd (by decide)

/-- What is in the rounding interval of a representable number rounds to it. -/
theorem roundUnits_of_contains (hden : 0 < den) (hpos : units ≠ 0) (hdvd : 2 ^ place units ∣ units)
    (hcontains : (roundingInterval units).contains (2 * num) den = true) :
    roundUnits num den = units := by
  obtain ⟨⟨hlow, hhigh⟩, -⟩ := RoundingInterval.contains_iff.1 hcontains
  have htop : units + 2 ^ place units ≤ 2 ^ (units.log2 + 1) :=
    add_two_pow_le (by rw [place]; omega) hdvd Nat.lt_log2_self
  have hstep : 0 < 2 ^ place units * den := Nat.mul_pos (Nat.two_pow_pos _) hden
  have hnum : num < 2 ^ (units.log2 + 1) * den := by
    have := Nat.mul_le_mul_right den htop
    rw [high_eq, Nat.add_mul, Nat.mul_assoc] at hhigh
    rw [Nat.add_mul] at this
    omega
  by_cases hzero : place units = 0
  · refine roundUnits_of_place hden hdvd hcontains ?_
    rw [hzero]
    refine place_eq_zero (Nat.lt_of_lt_of_le ((Nat.div_lt_iff_lt_mul hden).2 hnum) ?_)
    refine Nat.pow_le_pow_right (by decide) ?_
    rw [place] at hzero
    omega
  rcases Nat.lt_or_ge num (2 ^ units.log2 * den) with hbelow | hle
  · have htwo : units = 2 ^ units.log2 := by
      refine eq_two_pow_of_low_lt hpos hdvd ?_
      rw [← Nat.mul_lt_mul_right hden, Nat.pow_succ, Nat.mul_right_comm]
      omega
    exact roundUnits_of_below hden htwo (Nat.pos_of_ne_zero hzero) hcontains (htwo ▸ hbelow)
  · refine roundUnits_of_place hden hdvd hcontains ?_
    rw [place, place, log2_div_eq hden hle hnum]

/-- The number nearest to a quotient in the rounding interval of a number is that number. -/
theorem ofRatio_of_contains (negative : Bool) (hunits : Representable units) (hpos : units ≠ 0)
    (hden : 0 < den) (hcontains : (roundingInterval units).contains (2 * num) den = true) :
    ofRatio negative num den = .finite negative units hunits := by
  have hround := roundUnits_of_contains hden hpos hunits.2 hcontains
  have hlt : roundUnits num den < 2 ^ overflowBits := hround.symm ▸ hunits.1
  rw [ofRatio, dif_pos hlt]
  simp only [hround]

end GraphMotif.Binary64
