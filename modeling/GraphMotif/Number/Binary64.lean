/-!
# Binary64 numbers

A finite binary64 number is a sign and a whole number of quanta, the quantum being the smallest
positive one, `2 ^ -1074`. Counting in quanta makes every comparison one of natural numbers.
Zero keeps its sign. `ofRatio` rounds an exact quotient of quanta to the nearest number, a tie
going to the even neighbour; whatever it returns is representable, and the type says so.
-/

namespace GraphMotif

-- `2 ^ n` is the built-in power everywhere, also beside a library that brings a power of its own.
attribute [instance (2000)] instPowNat

/-- The number of quanta in one is `2 ^ quantumBits`. -/
def quantumBits : Nat := 1074

/-- Numbers of at least `2 ^ overflowBits` quanta are too large for the format. -/
def overflowBits : Nat := 2098

/-- A number of quanta is representable when it is below the overflow threshold and its binary
digits after the leading 53 are zeros. -/
def Representable (units : Nat) : Prop :=
  units < 2 ^ overflowBits ∧ 2 ^ (units.log2 - 52) ∣ units

instance (units : Nat) : Decidable (Representable units) :=
  inferInstanceAs (Decidable (_ ∧ _))

/-- A number of the binary64 format. -/
inductive Binary64 where
  /-- Not a number. -/
  | nan
  | infinity (negative : Bool)
  /-- A signed number of quanta; `finite true 0` is negative zero. -/
  | finite (negative : Bool) (units : Nat) (representable : Representable units)
  deriving DecidableEq

namespace Binary64

/-- The whole number nearest to `num / den`, a half going to the even neighbour. -/
def roundHalfEven (num den : Nat) : Nat :=
  let quotient := num / den
  let rest := num % den
  if 2 * rest < den then quotient
  else if den < 2 * rest then quotient + 1
  else quotient + quotient % 2

theorem roundHalfEven_le (num den : Nat) : roundHalfEven num den ≤ num / den + 1 := by
  simp only [roundHalfEven]
  split
  · omega
  · split <;> omega

/-- The quotient `num / den` cut to 53 leading binary digits, correctly rounded. -/
def roundUnits (num den : Nat) : Nat :=
  let shift := (num / den).log2 - 52
  roundHalfEven num (den * 2 ^ shift) * 2 ^ shift

/-- Rounding leaves at most 53 significant binary digits. -/
theorem dvd_roundUnits (num den : Nat) :
    2 ^ ((roundUnits num den).log2 - 52) ∣ roundUnits num den := by
  simp only [roundUnits]
  generalize hs : (num / den).log2 - 52 = s
  generalize hq : roundHalfEven num (den * 2 ^ s) = q
  have hle : q ≤ 2 ^ 53 := by
    have hround := roundHalfEven_le num (den * 2 ^ s)
    have hwhole : num / den < 2 ^ (53 + s) := by
      refine Nat.lt_of_lt_of_le Nat.lt_log2_self ?_
      exact Nat.pow_le_pow_right (by decide) (by omega)
    have hquot : num / (den * 2 ^ s) < 2 ^ 53 := by
      rw [← Nat.div_div_eq_div_mul, Nat.div_lt_iff_lt_mul (Nat.two_pow_pos s), ← Nat.pow_add]
      exact hwhole
    omega
  rcases Nat.lt_or_ge q (2 ^ 53) with hlt | hge
  · rcases Nat.eq_zero_or_pos q with rfl | hpos
    · simp
    · have hne : q * 2 ^ s ≠ 0 := Nat.mul_ne_zero (by omega) (Nat.ne_of_gt (Nat.two_pow_pos s))
      have hlog : (q * 2 ^ s).log2 < 53 + s := by
        rw [Nat.log2_lt hne, Nat.pow_add]
        exact Nat.mul_lt_mul_of_pos_right hlt (Nat.two_pow_pos s)
      exact Nat.dvd_trans (Nat.pow_dvd_pow 2 (by omega)) (Nat.dvd_mul_left _ _)
  · obtain rfl : q = 2 ^ 53 := by omega
    rw [← Nat.pow_add, Nat.log2_two_pow]
    exact Nat.pow_dvd_pow 2 (by omega)

/-- The number nearest to `num / den` quanta, with the given sign. -/
def ofRatio (negative : Bool) (num den : Nat) : Binary64 :=
  if h : roundUnits num den < 2 ^ overflowBits then
    .finite negative (roundUnits num den) ⟨h, dvd_roundUnits num den⟩
  else .infinity negative

/-- The number nearest to an integer. -/
def ofInt (n : Int) : Binary64 :=
  ofRatio (n < 0) (n.natAbs * 2 ^ quantumBits) 1

end Binary64

end GraphMotif
