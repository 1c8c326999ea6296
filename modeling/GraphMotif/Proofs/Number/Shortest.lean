import GraphMotif.Number.Decimal
import GraphMotif.Proofs.Number.Rounding
import Mathlib.Tactic.Ring

/-!
# The shortest digits read back

The search for the shortest digits of a number ends at a hit: on a grid finer than the rounding
intervals, the neighbour below any number is in its interval, and the search comes to such a grid.
So the digits that are found, at their place, stand for a decimal that rounds to the number.
-/

namespace GraphMotif.Binary64

variable {units digits : Nat} {k : Int}

/-- The decimal grid `10 ^ k`, in half quanta, is the multiples of `gridStep k / gridDen k`. -/
def gridStep (k : Int) : Nat := 10 ^ k.toNat * 2 ^ (quantumBits + 1)

def gridDen (k : Int) : Nat := 10 ^ (-k).toNat

theorem gridDen_pos (k : Int) : 0 < gridDen k := Nat.pow_pos (by decide)

theorem gridStep_pos (k : Int) : 0 < gridStep k :=
  Nat.mul_pos (Nat.pow_pos (by decide)) (Nat.two_pow_pos _)

/-- Whether a multiple on a grid reads back as a number. -/
def ReadsBack (units digits : Nat) (k : Int) : Prop :=
  (roundingInterval units).contains (digits * gridStep k) (gridDen k) = true

/-- What is found on a grid reads back. -/
theorem readsBack_of_nearestOnGrid?
    (h : nearestOnGrid? units (roundingInterval units) k = some digits) :
    ReadsBack units digits k := by
  simp only [nearestOnGrid?, ReadsBack, gridStep, gridDen] at h ⊢
  generalize 10 ^ k.toNat * 2 ^ (quantumBits + 1) = step at h ⊢
  generalize 10 ^ (-k).toNat = den at h ⊢
  split at h
  · cases h
  · next hfloor _ =>
    obtain rfl := Option.some.inj h
    exact hfloor
  · next _ hceil =>
    obtain rfl := Option.some.inj h
    exact hceil
  · next hfloor hceil =>
    -- of the two neighbours the nearer one is taken, or the even one
    split at h
    · obtain rfl := Option.some.inj h
      exact hfloor
    · split at h
      · obtain rfl := Option.some.inj h
        exact hceil
      · obtain rfl := Option.some.inj h
        rcases Nat.mod_two_eq_zero_or_one (2 * units * den / step) with heven | hodd
        · rw [heven, Nat.add_zero]
          exact hfloor
        · rw [hodd]
          exact hceil

/-- Half a place is at least half a quantum. -/
theorem low_add_one_le (units : Nat) (hpos : units ≠ 0) :
    (roundingInterval units).low + 1 ≤ 2 * units := by
  simp only [roundingInterval]
  split
  · have := Nat.two_pow_pos (units.log2 - 52 - 1)
    omega
  · have := Nat.two_pow_pos (units.log2 - 52)
    omega

/-- On a grid finer than half quanta the neighbour below a number reads back. -/
theorem nearestOnGrid?_ne_none (hpos : units ≠ 0) (hfine : gridStep k ≤ gridDen k) :
    nearestOnGrid? units (roundingInterval units) k ≠ none := by
  have hvalue := Nat.div_add_mod' (2 * units * gridDen k) (gridStep k)
  have hrest := Nat.mod_lt (2 * units * gridDen k) (gridStep_pos k)
  have hden := gridDen_pos k
  have hhigh : 2 * units * gridDen k < (roundingInterval units).high * gridDen k := by
    rw [Nat.mul_lt_mul_right hden, high_eq]
    exact Nat.lt_add_of_pos_right (Nat.two_pow_pos _)
  have hlow := Nat.mul_le_mul_right (gridDen k) (low_add_one_le units hpos)
  rw [Nat.succ_mul] at hlow
  have hfloor : (roundingInterval units).contains
      (2 * units * gridDen k / gridStep k * gridStep k) (gridDen k) = true := by
    rw [RoundingInterval.contains_iff]
    omega
  simp only [nearestOnGrid?]
  split
  · next hnone _ => exact absurd (hnone.symm.trans hfloor) nofun
  · nofun
  · nofun
  · split
    · nofun
    · split <;> nofun

/-- The search ends at a hit, at the latest on the first grid that has one. -/
theorem firstHit_readsBack {fuel n : Nat} {start : Int} (hn : n < fuel)
    (hhit : nearestOnGrid? units (roundingInterval units) (start - n) ≠ none) :
    (firstHit units (roundingInterval units) fuel start).2 ≤ start ∧
      ReadsBack units (firstHit units (roundingInterval units) fuel start).1
        (firstHit units (roundingInterval units) fuel start).2 := by
  induction fuel generalizing n start with
  | zero => exact absurd hn (Nat.not_lt_zero n)
  | succ fuel ih =>
    cases hgrid : nearestOnGrid? units (roundingInterval units) start with
    | some digits =>
      simp only [firstHit, hgrid]
      exact ⟨le_rfl, readsBack_of_nearestOnGrid? hgrid⟩
    | none =>
      cases n with
      | zero =>
        rw [Int.natCast_zero, Int.sub_zero] at hhit
        exact absurd hgrid hhit
      | succ n =>
        have hstart : start - (n + 1 : Nat) = start - 1 - n := by omega
        obtain ⟨hle, hreads⟩ := ih (Nat.lt_of_succ_lt_succ hn) (hstart ▸ hhit)
        simp only [firstHit, hgrid]
        exact ⟨by omega, hreads⟩

/-- The shortest digits of a number read back. -/
theorem shortest_readsBack (hunits : Representable units) (hpos : units ≠ 0) :
    ReadsBack units (shortest units).1 (shortest units).2 := by
  have hlog : units.log2 < overflowBits := (Nat.log2_lt hpos).2 hunits.1
  have hhit : nearestOnGrid? units (roundingInterval units) (-324) ≠ none :=
    nearestOnGrid?_ne_none hpos (by decide +kernel)
  have hsearch {start : Int} (hlow : -324 ≤ start) (hhigh : start < 376) :
      ReadsBack units (firstHit units (roundingInterval units) 700 start).1
        (firstHit units (roundingInterval units) 700 start).2 := by
    refine (firstHit_readsBack (n := (start + 324).toNat) (by omega) ?_).2
    rwa [show start - (start + 324).toNat = -324 by omega]
  rw [overflowBits] at hlog
  rw [shortest, quantumBits]
  apply hsearch
  · split <;> omega
  · split <;> omega

/-! ## Decimals that read back -/

namespace ReadsBack

/-- Zeros may be written at the end. -/
theorem append_zeros {n : Nat} (h : ReadsBack units digits (k + n)) :
    ReadsBack units (digits * 10 ^ n) k := by
  refine RoundingInterval.contains_congr (gridDen_pos _) (gridDen_pos _) ?_ h
  have hpow : 10 ^ (k + n).toNat * 10 ^ (-k).toNat =
      10 ^ n * 10 ^ k.toNat * 10 ^ (-(k + n)).toNat := by
    rw [← Nat.pow_add, ← Nat.pow_add, ← Nat.pow_add]
    refine congrArg (10 ^ ·) ?_
    omega
  simp only [gridStep, gridDen]
  generalize 2 ^ (quantumBits + 1) = one
  calc digits * (10 ^ (k + n).toNat * one) * 10 ^ (-k).toNat
      = digits * one * (10 ^ (k + n).toNat * 10 ^ (-k).toNat) := by ring
    _ = digits * 10 ^ n * (10 ^ k.toNat * one) * 10 ^ (-(k + n)).toNat := by
        rw [hpow]
        ring

/-- The grid point is above zero by at least half a quantum. -/
theorem gridDen_le (hpos : units ≠ 0) (h : ReadsBack units digits k) :
    gridDen k ≤ digits * gridStep k := by
  obtain ⟨⟨hlow, -⟩, -⟩ := RoundingInterval.contains_iff.1 h
  have hplace := two_pow_place_le hpos
  have hone : 1 ≤ (roundingInterval units).low := by
    have := le_low units
    omega
  exact (Nat.le_mul_of_pos_left _ hone).trans hlow

theorem digits_ne_zero (hpos : units ≠ 0) (h : ReadsBack units digits k) : digits ≠ 0 := by
  rintro rfl
  have hle := h.gridDen_le hpos
  rw [Nat.zero_mul] at hle
  exact absurd (gridDen_pos k) (Nat.not_lt.2 hle)

theorem exponent_le (hunits : Representable units) (hpos : units ≠ 0)
    (h : ReadsBack units digits k) : k ≤ 309 := by
  obtain ⟨⟨-, hhigh⟩, -⟩ := RoundingInterval.contains_iff.1 h
  by_contra! hk
  have hden : gridDen k = 1 := by
    rw [gridDen, Int.toNat_eq_zero.2 (by omega), Nat.pow_zero]
  have hdigits := Nat.pos_of_ne_zero (h.digits_ne_zero hpos)
  have hplace := two_pow_place_le hpos
  obtain ⟨n, hn, hlarge⟩ :
      ∃ n, n = 309 ∧ 3 * 2 ^ overflowBits < 10 ^ n * 2 ^ (quantumBits + 1) :=
    ⟨309, rfl, by decide +kernel⟩
  have hstep : 10 ^ n * 2 ^ (quantumBits + 1) ≤ gridStep k :=
    Nat.mul_le_mul_right _ (Nat.pow_le_pow_right (by decide) (by omega))
  have hlt := hunits.1
  generalize 10 ^ n * 2 ^ (quantumBits + 1) = large at hstep hlarge
  generalize 2 ^ overflowBits = overflow at hlarge hlt
  rw [hden, high_eq, Nat.mul_one] at hhigh
  have hle := (Nat.le_mul_of_pos_left (gridStep k) hdigits).trans hhigh
  omega

theorem le_exponent (hpos : units ≠ 0) (h : ReadsBack units digits k) :
    -330 ≤ k + (digits.log2 / 3 + 1 : Nat) := by
  have hdigits : digits < 10 ^ (digits.log2 / 3 + 1) := by
    calc digits < 2 ^ (digits.log2 + 1) := Nat.lt_log2_self
      _ ≤ 2 ^ (3 * (digits.log2 / 3 + 1)) := Nat.pow_le_pow_right (by decide) (by omega)
      _ = 8 ^ (digits.log2 / 3 + 1) := Nat.pow_mul 2 3 _
      _ ≤ 10 ^ (digits.log2 / 3 + 1) := Nat.pow_le_pow_left (by decide) _
  by_contra! hk
  have hle := h.gridDen_le hpos
  have hzero : k.toNat = 0 := Int.toNat_eq_zero.2 (by omega)
  rw [gridStep, gridDen, hzero, Nat.pow_zero, Nat.one_mul] at hle
  have hpow : 10 ^ (digits.log2 / 3 + 1) * 10 ^ 324 ≤ 10 ^ (-k).toNat := by
    rw [← Nat.pow_add]
    exact Nat.pow_le_pow_right (by decide) (by omega)
  have hone : 2 ^ (quantumBits + 1) ≤ 10 ^ 324 := by decide +kernel
  have hlt : digits * 2 ^ (quantumBits + 1) < 10 ^ (digits.log2 / 3 + 1) * 2 ^ (quantumBits + 1) :=
    Nat.mul_lt_mul_of_pos_right hdigits (Nat.two_pow_pos _)
  exact absurd ((hle.trans_lt hlt).trans_le (Nat.mul_le_mul_left _ hone)) (Nat.not_lt.2 hpow)

end ReadsBack

/-- A decimal that reads back as a number is rounded to it. -/
theorem toBinary64_of_readsBack {d : Decimal} (hunits : Representable units) (hpos : units ≠ 0)
    (h : ReadsBack units d.digits d.exponent) :
    d.toBinary64 = .finite d.negative units hunits := by
  rw [Decimal.toBinary64, if_neg (h.digits_ne_zero hpos),
    if_neg (Int.not_lt.2 (h.exponent_le hunits hpos)), if_neg (Int.not_lt.2 (h.le_exponent hpos))]
  refine ofRatio_of_contains d.negative hunits hpos (gridDen_pos d.exponent) ?_
  have hnum : 2 * (d.digits * 10 ^ d.exponent.toNat * 2 ^ quantumBits) =
      d.digits * gridStep d.exponent := by
    rw [gridStep, Nat.pow_succ]
    generalize 2 ^ quantumBits = one
    ring
  rw [hnum]
  exact h

end GraphMotif.Binary64
