import Mathlib.Algebra.Order.Field.Basic
import ShapeAssembly.Proofs.Rounding

namespace ShapeAssembly

def signed (negative : Bool) (x : ℚ) : ℚ := if negative then -x else x

section

variable {a b : Bool} {x y : ℚ}

theorem signed_mul (a : Bool) (x y : ℚ) : signed a (x * y) = signed a x * y := by
  cases a with
  | false => rfl
  | true => exact (neg_mul x y).symm

theorem signed_zero (a : Bool) : signed a 0 = 0 := by
  cases a with
  | false => rfl
  | true => exact neg_zero

theorem abs_signed (a : Bool) (hx : 0 ≤ x) : |signed a x| = x := by
  cases a with
  | false => exact abs_of_nonneg hx
  | true => exact (abs_neg x).trans (abs_of_nonneg hx)

theorem abs_signed_sub (a : Bool) (x y : ℚ) : |signed a y - signed a x| = |y - x| := by
  cases a with
  | false => rfl
  | true =>
    show |-y - -x| = _
    rw [neg_sub_neg, abs_sub_comm]

theorem abs_signed_sub_of_ne (h : a ≠ b) (hx : 0 ≤ x) (hy : 0 ≤ y) :
    |signed b y - signed a x| = y + x := by
  have hsum : |y + x| = y + x := abs_of_nonneg (add_nonneg hy hx)
  cases a <;> cases b
  · exact absurd rfl h
  · show |-y - x| = _
    rw [← neg_add', abs_neg, hsum]
  · show |y - -x| = _
    rw [sub_neg_eq_add, hsum]
  · exact absurd rfl h

end

namespace Double

def value (d : Double) : ℚ := signed d.negative (units d.rank) / 2 ^ 1074

/-- No double is nearer to a number. If another one is as near, this one is even: the rank ends in
the last bit of the significand. -/
structure IsNearest (d : Double) (v : ℚ) : Prop where
  closest : ∀ d' : Double, |d.value - v| ≤ |d'.value - v|
  even : ∀ d' : Double, d'.value ≠ d.value → |d'.value - v| = |d.value - v| → Even d.rank

namespace Rounds

variable {x : ℚ} {rank : Nat}

/-- No magnitude is nearer than that of the rank, and another is as near only if the rank is
even. -/
theorem closest (h : Rounds x rank) (r : Nat) :
    |(units rank : ℚ) - x| ≤ |(units r : ℚ) - x| ∧
      (|(units r : ℚ) - x| = |(units rank : ℚ) - x| → r ≠ rank → Even rank) := by
  have hlow := h.low
  have hhigh := h.high
  rcases lt_trichotomy r rank with hlt | rfl | hgt
  · -- the lower midpoint is between the two
    have hprev : (units r : ℚ) ≤ units (rank - 1) :=
      Nat.cast_le.2 (strictMono_units.monotone (by omega))
    have hr : (units r : ℚ) < units rank := Nat.cast_lt.2 (strictMono_units hlt)
    rw [abs_of_nonpos (by linarith : (units r : ℚ) - x ≤ 0)]
    refine ⟨abs_le.2 ⟨by linarith, by linarith⟩, fun htie _ => h.even (.inl ?_)⟩
    rcases abs_choice ((units rank : ℚ) - x) with habs | habs <;> rw [habs] at htie <;> linarith
  · exact ⟨le_refl _, fun _ hne => absurd rfl hne⟩
  · have hnext : (units (rank + 1) : ℚ) ≤ units r :=
      Nat.cast_le.2 (strictMono_units.monotone hgt)
    have hr : (units rank : ℚ) < units r := Nat.cast_lt.2 (strictMono_units hgt)
    rw [abs_of_nonneg (by linarith : (0 : ℚ) ≤ (units r : ℚ) - x)]
    refine ⟨abs_le.2 ⟨by linarith, by linarith⟩, fun htie _ => h.even (.inr ?_)⟩
    rcases abs_choice ((units rank : ℚ) - x) with habs | habs <;> rw [habs] at htie <;> linarith

/-- Nor is a magnitude with a sign nearer. -/
theorem closest_signed (h : Rounds x rank) (hx : 0 ≤ x) (a b : Bool) (r : Nat) :
    |signed a (units rank) - signed a x| ≤ |signed b (units r) - signed a x| ∧
      (|signed b (units r) - signed a x| = |signed a (units rank) - signed a x| →
        signed b (units r) ≠ signed a (units rank) → Even rank) := by
  rw [abs_signed_sub]
  by_cases hsign : a = b
  · obtain ⟨hle, heven⟩ := h.closest r
    rw [← hsign, abs_signed_sub]
    exact ⟨hle, fun htie hne => heven htie fun hr => hne (by rw [hr])⟩
  · -- beyond zero nothing is nearer than zero
    obtain ⟨hle, heven⟩ := h.closest 0
    have hr : (0 : ℚ) ≤ units r := Nat.cast_nonneg _
    rw [units_zero, Nat.cast_zero, zero_sub, abs_neg, abs_of_nonneg hx] at hle heven
    rw [abs_signed_sub_of_ne hsign hx hr]
    refine ⟨hle.trans (le_add_of_nonneg_left hr), fun htie hne => ?_⟩
    have hzero : (units r : ℚ) = 0 := le_antisymm (by linarith) hr
    rw [hzero, zero_add] at htie
    refine heven htie fun hrank => hne ?_
    rw [hzero, ← hrank, units_zero, Nat.cast_zero, signed_zero, signed_zero]

/-- The double of the rank that a magnitude rounds to is the nearest one, whatever the sign. -/
theorem isNearest {d : Double} (h : Rounds x d.rank) (hx : 0 ≤ x) :
    d.IsNearest (signed d.negative x / 2 ^ 1074) := by
  have hpos : (0 : ℚ) < 2 ^ 1074 := by positivity
  have hvalue : ∀ d' : Double, d'.value = signed d'.negative (units d'.rank) / 2 ^ 1074 :=
    fun _ => rfl
  generalize (2 : ℚ) ^ 1074 = k at hpos hvalue ⊢
  have hscale : ∀ y z : ℚ, |y / k - z / k| = |y - z| / k := fun y z => by
    rw [← sub_div, abs_div, abs_of_pos hpos]
  refine ⟨fun d' => ?_, fun d' hne htie => ?_⟩
  · rw [hvalue, hvalue, hscale, hscale]
    exact div_le_div_of_nonneg_right (h.closest_signed hx _ _ _).1 hpos.le
  · rw [hvalue, hvalue, hscale, hscale, div_left_inj' hpos.ne'] at htie
    rw [hvalue, hvalue, Ne, div_left_inj' hpos.ne'] at hne
    exact (h.closest_signed hx _ _ _).2 htie hne

end Rounds

/-- The midpoint between the largest magnitude of a double and the next. -/
theorem midpoint_last : ((units (2047 * binade - 1) : ℚ) + units (2047 * binade)) =
    2 * ((2 ^ 1024 - 2 ^ 970) * 2 ^ 1074) := by
  have hlast : units (2047 * binade - 1) = (2 ^ 53 - 1) * 2 ^ 2045 := by
    have hsplit : 2047 * binade - 1 = 2045 * binade + (2 ^ 53 - 1) := by decide
    rw [hsplit]
    exact units_scaled (by decide) (.inr (by decide))
  have hnext : units (2047 * binade) = 2 ^ 53 * 2 ^ 2045 := by
    have hsplit : 2047 * binade = 2045 * binade + 2 ^ 53 := by decide
    rw [hsplit]
    exact units_scaled (by decide) (.inr (by decide))
  have hlarge : (2 : ℚ) ^ 1024 * 2 ^ 1074 = 2 ^ 53 * 2 ^ 2045 := by rw [← pow_add, ← pow_add]
  have hhalf : 2 * ((2 : ℚ) ^ 970 * 2 ^ 1074) = 2 ^ 2045 := by rw [← pow_add, ← pow_succ']
  rw [hlast, hnext, sub_mul, hlarge, mul_sub, hhalf]
  generalize 2045 = k
  push_cast
  ring

end Double

namespace Decimal

def value (d : Decimal) : ℚ := signed d.negative (d.digits * 10 ^ d.exponent)

theorem inUnits_nonneg (d : Decimal) : 0 ≤ d.inUnits := by
  rw [inUnits]
  positivity

theorem value_eq (d : Decimal) : d.value = signed d.negative d.inUnits / 2 ^ 1074 := by
  rw [value, inUnits, signed_mul _ (d.digits * 10 ^ d.exponent : ℚ),
    mul_div_cancel_right₀ _ (by positivity)]

/-- The rank that a decimal rounds to is that of a double up to half a step past the largest. -/
theorem rank_lt_iff (d : Decimal) :
    d.rank < 2047 * Double.binade ↔ |d.value| < 2 ^ 1024 - 2 ^ 970 := by
  have hpos : (0 : ℚ) < 2 ^ 1074 := by positivity
  rw [d.rounds_rank.rank_lt_iff, Double.midpoint_last, mul_lt_mul_iff_right₀ two_pos, value_eq,
    abs_div, abs_signed _ d.inUnits_nonneg, abs_of_pos hpos, div_lt_iff₀ hpos]

/-- A decimal is read as the nearest double with its sign, unless its magnitude is too large. -/
theorem toDouble?_classified (d : Decimal) :
    (|d.value| < 2 ^ 1024 - 2 ^ 970 → ∃ x, d.toDouble? = some x ∧ x.IsNearest d.value ∧
      x.negative = d.negative) ∧
    (2 ^ 1024 - 2 ^ 970 ≤ |d.value| → d.toDouble? = none) := by
  rw [toDouble?_eq, Double.ofRank?]
  constructor
  · intro h
    have hr := d.rank_lt_iff.2 h
    have hnearest : Double.IsNearest ⟨d.negative, d.rank, hr⟩ d.value := by
      rw [value_eq]
      exact Double.Rounds.isNearest d.rounds_rank d.inUnits_nonneg
    rw [dif_pos hr]
    exact ⟨_, rfl, hnearest, rfl⟩
  · intro h
    rw [dif_neg fun hr => not_lt.2 h (d.rank_lt_iff.1 hr)]

end Decimal

end ShapeAssembly
