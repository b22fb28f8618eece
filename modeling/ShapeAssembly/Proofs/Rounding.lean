import Mathlib.Algebra.Order.Field.Power
import Mathlib.Algebra.Ring.Parity
import Mathlib.Data.Rat.Cast.Order
import Mathlib.Tactic.FieldSimp
import Mathlib.Tactic.GCongr
import Mathlib.Tactic.Linarith
import Mathlib.Tactic.NormNum
import Mathlib.Tactic.Ring
import ShapeAssembly.Decimal

namespace ShapeAssembly

namespace Double

theorem binade_pos : 0 < binade := by decide

theorem even_binade : Even binade := by decide

/-- A magnitude is a significand times a power of two. The last significand of a scale is also the
first one of the next. -/
theorem units_scaled {scale m : Nat} (hm : m ≤ 2 * binade) (hs : scale = 0 ∨ binade ≤ m) :
    units (scale * binade + m) = m * 2 ^ scale := by
  have hpos := binade_pos
  rw [units]
  generalize binade = b at *
  rcases Nat.lt_or_ge m b with hlt | hge
  · obtain rfl : scale = 0 := hs.resolve_right (Nat.not_le.2 hlt)
    rw [Nat.zero_mul, Nat.zero_add, if_pos hlt, Nat.pow_zero, Nat.mul_one]
  · rw [if_neg (by omega : ¬ scale * b + m < b)]
    rcases Nat.lt_or_eq_of_le hm with hlt | rfl
    · have hdiv : (scale * b + m) / b = scale + 1 :=
        Nat.div_eq_of_lt_le (by rw [Nat.succ_mul]; omega)
          (by rw [Nat.succ_mul, Nat.succ_mul]; omega)
      have hmod : (scale * b + m) % b = m - b := by
        rw [Nat.mul_add_mod_self_right, Nat.mod_eq_sub_mod hge, Nat.mod_eq_of_lt (by omega)]
      rw [hdiv, hmod, Nat.add_sub_cancel, Nat.add_sub_cancel' hge]
      rfl
    · have hdiv : (scale * b + 2 * b) / b = scale + 2 := by
        rw [← Nat.add_mul, Nat.mul_div_cancel _ hpos]
      have hmod : (scale * b + 2 * b) % b = 0 := by
        rw [← Nat.add_mul, Nat.mul_mod_left]
      rw [hdiv, hmod]
      show b * 2 ^ (scale + 1) = 2 * b * 2 ^ scale
      rw [Nat.pow_succ, Nat.mul_comm 2 b, Nat.mul_assoc, Nat.mul_comm 2]

theorem exists_scaled (rank : Nat) :
    ∃ scale m, rank = scale * binade + m ∧ m < 2 * binade ∧ (scale = 0 ∨ binade ≤ m) := by
  have hdiv := Nat.div_add_mod' rank binade
  have hmod := Nat.mod_lt rank binade_pos
  generalize binade = b at *
  rcases Nat.eq_zero_or_pos (rank / b) with hzero | hpos
  · rw [hzero] at hdiv
    exact ⟨0, rank, by omega, by omega, .inl rfl⟩
  · obtain ⟨scale, hscale⟩ : ∃ scale, rank / b = scale + 1 := ⟨rank / b - 1, by omega⟩
    rw [hscale, Nat.succ_mul] at hdiv
    exact ⟨scale, b + rank % b, by omega, by omega, .inr (Nat.le_add_right _ _)⟩

theorem strictMono_units : StrictMono units := by
  apply strictMono_nat_of_lt_succ
  intro rank
  obtain ⟨scale, m, rfl, hm, hs⟩ := exists_scaled rank
  rw [units_scaled hm.le hs, Nat.add_assoc, units_scaled hm (hs.imp_right Nat.le_succ_of_le)]
  exact Nat.mul_lt_mul_of_pos_right (Nat.lt_succ_self m) (Nat.two_pow_pos scale)

theorem units_zero : units 0 = 0 := by decide

theorem units_one : units 1 = 1 := by decide

/-- A magnitude in units is nearest to that of a rank: it lies between the midpoints to the
neighbours, and on one of them only if the rank is even. -/
structure Rounds (x : ℚ) (rank : Nat) : Prop where
  low : (units (rank - 1) + units rank : ℚ) ≤ 2 * x
  high : 2 * x ≤ (units rank + units (rank + 1) : ℚ)
  even : 2 * x = (units (rank - 1) + units rank : ℚ) ∨
    2 * x = (units rank + units (rank + 1) : ℚ) → Even rank

/-- A magnitude is nearest to one rank only. -/
theorem Rounds.eq {x : ℚ} {r s : Nat} (hr : Rounds x r) (hs : Rounds x s) : r = s := by
  have hle : ∀ r s, Rounds x r → Rounds x s → s ≤ r := by
    intro r s hr hs
    by_contra hlt
    -- then the upper midpoint of the one is the lower midpoint of the other
    have hpred : (units r : ℚ) ≤ units (s - 1) :=
      Nat.cast_le.2 (strictMono_units.monotone (by omega))
    have hnext : (units (r + 1) : ℚ) ≤ units s :=
      Nat.cast_le.2 (strictMono_units.monotone (by omega))
    have hlow := hs.low
    have hhigh := hr.high
    have heq : units (r + 1) = units s := Nat.cast_injective (R := ℚ) (by linarith)
    obtain rfl : r + 1 = s := strictMono_units.injective heq
    have hr : Even r := hr.even (.inr (by linarith))
    have hs : Even (r + 1) := hs.even (.inl (by linarith))
    exact (Nat.even_add_one.1 hs) hr
  exact Nat.le_antisymm (hle s r hs hr) (hle r s hr hs)

theorem roundHalfEven_spec (n : Nat) {d : Nat} (hd : 0 < d) :
    2 * (roundHalfEven n d * d) ≤ 2 * n + d ∧ 2 * n ≤ 2 * (roundHalfEven n d * d) + d ∧
      (2 * (roundHalfEven n d * d) = 2 * n + d ∨ 2 * n = 2 * (roundHalfEven n d * d) + d →
        Even (roundHalfEven n d)) := by
  have hdiv := Nat.div_add_mod' n d
  have hmod := Nat.mod_lt n hd
  simp only [roundHalfEven]
  split
  · rename_i hdown
    refine ⟨by omega, by omega, fun htie => ?_⟩
    rw [Nat.even_iff]
    omega
  · rename_i hup
    rw [Nat.add_mul, Nat.one_mul]
    refine ⟨by omega, by omega, fun htie => ?_⟩
    rw [Nat.even_iff]
    omega

theorem rounds_div {n d rank : Nat} (hd : 0 < d)
    (hlow : (units (rank - 1) + units rank) * d ≤ 2 * n)
    (hhigh : 2 * n ≤ (units rank + units (rank + 1)) * d)
    (heven : 2 * n = (units (rank - 1) + units rank) * d ∨
      2 * n = (units rank + units (rank + 1)) * d → Even rank) :
    Rounds (n / d : ℚ) rank := by
  have hpos : (0 : ℚ) < d := Nat.cast_pos.2 hd
  have hx : 2 * (n / d : ℚ) = (2 * n : Nat) / (d : ℚ) := by
    push_cast
    ring
  have hmid : ∀ a b : Nat, (a + b : ℚ) = ((a + b : Nat) : ℚ) := fun a b => (Nat.cast_add a b).symm
  refine ⟨?_, ?_, ?_⟩
  · rw [hx, hmid, le_div_iff₀ hpos]
    exact_mod_cast hlow
  · rw [hx, hmid, div_le_iff₀ hpos]
    exact_mod_cast hhigh
  · rw [hx, hmid, hmid, div_eq_iff hpos.ne', div_eq_iff hpos.ne']
    exact fun h => heven (by exact_mod_cast h)

/-- The scale leaves at most 53 bits before the point, and no fewer unless it is zero. -/
theorem scale_bounds (n : Nat) {d scale : Nat} (hd : 0 < d) (hs : (n / d).log2 - 52 = scale) :
    n < 2 * binade * (d * 2 ^ scale) ∧ (scale = 0 ∨ binade * (d * 2 ^ scale) ≤ n) := by
  have hbinade : binade = 2 ^ 52 := rfl
  rw [Nat.mul_comm d, ← Nat.mul_assoc, ← Nat.mul_assoc, ← Nat.div_lt_iff_lt_mul hd,
    ← Nat.le_div_iff_mul_le hd, hbinade, ← Nat.pow_succ', ← Nat.pow_add, ← Nat.pow_add]
  refine ⟨Nat.lt_log2_self.trans_le (Nat.pow_le_pow_right (by decide) (by omega)), ?_⟩
  rcases Nat.eq_zero_or_pos scale with hzero | hpos
  · exact .inl hzero
  · have hlog : 52 + scale = (n / d).log2 := by omega
    have hne : n / d ≠ 0 := by
      rintro hq
      rw [hq, Nat.log2_zero] at hlog
      omega
    rw [hlog]
    exact .inr (Nat.log2_self_le hne)

/-- The rank after a significand has at least the next one. -/
theorem units_next {scale m : Nat} (hm : m ≤ 2 * binade) (hs : scale = 0 ∨ binade ≤ m) :
    (m + 1) * 2 ^ scale ≤ units (scale * binade + m + 1) ∧
      (units (scale * binade + m + 1) = (m + 1) * 2 ^ scale ∨ Even m) := by
  have hpos := binade_pos
  rcases Nat.lt_or_eq_of_le hm with hlt | rfl
  · rw [Nat.add_assoc, units_scaled hlt (hs.imp_right Nat.le_succ_of_le)]
    exact ⟨Nat.le_refl _, .inl rfl⟩
  · have hcarry : scale * binade + 2 * binade + 1 = (scale + 1) * binade + (binade + 1) := by
      rw [Nat.add_mul]
      omega
    rw [hcarry, units_scaled (by omega) (.inr (by omega)), Nat.pow_succ', ← Nat.mul_assoc]
    exact ⟨Nat.mul_le_mul_right _ (by omega), .inr (even_two_mul _)⟩

section

variable {n d scale m : Nat} (hd : 0 < d) (hm : m ≤ 2 * binade) (hs : scale = 0 ∨ binade ≤ m)

include hm hs in
/-- A magnitude at most half a significand below another is no lower than the midpoint there. -/
theorem midpoint_le (hge : scale = 0 ∨ binade * (d * 2 ^ scale) ≤ n)
    (hlow : 2 * (m * (d * 2 ^ scale)) ≤ 2 * n + d * 2 ^ scale)
    (heven : 2 * (m * (d * 2 ^ scale)) = 2 * n + d * 2 ^ scale → Even m) :
    (units (scale * binade + m - 1) + units (scale * binade + m)) * d ≤ 2 * n ∧
      (2 * n = (units (scale * binade + m - 1) + units (scale * binade + m)) * d → Even m) := by
  have hunits := units_scaled hm hs
  by_cases hfirst : scale = 0 ∨ binade < m
  · cases m with
    | zero =>
      obtain rfl : scale = 0 := hfirst.resolve_right (Nat.not_lt_zero _)
      have hnone : (units (0 * binade + 0 - 1) + units (0 * binade + 0)) * d = 0 := by
        rw [Nat.zero_mul, units_zero, Nat.zero_mul]
      rw [hnone]
      exact ⟨Nat.zero_le _, fun _ => Even.zero⟩
    | succ k =>
      have hmid : (units (scale * binade + (k + 1) - 1) + units (scale * binade + (k + 1))) * d +
          d * 2 ^ scale = 2 * ((k + 1) * (d * 2 ^ scale)) := by
        rw [hunits, ← Nat.add_assoc, Nat.add_sub_cancel,
          units_scaled (by omega) (hfirst.imp_right Nat.le_of_lt_succ)]
        ring
      exact ⟨by omega, fun htie => heven (by omega)⟩
  · -- below the first significand of a scale the ranks are closer
    rw [not_or] at hfirst
    have hpos := binade_pos
    obtain rfl : m = binade := Nat.le_antisymm (Nat.not_lt.1 hfirst.2) (hs.resolve_left hfirst.1)
    have hprev := strictMono_units.monotone (Nat.sub_le (scale * binade + binade) 1)
    have hmid := Nat.mul_le_mul_right d (Nat.add_le_add_right hprev
      (units (scale * binade + binade)))
    have hfull : (binade * 2 ^ scale + binade * 2 ^ scale) * d =
        2 * (binade * (d * 2 ^ scale)) := by ring
    rw [hunits, hfull] at hmid
    rw [hunits]
    exact ⟨hmid.trans (Nat.mul_le_mul_left 2 (hge.resolve_left hfirst.1)), fun _ => even_binade⟩

include hm hs in
/-- A magnitude at most half a significand above another is no higher than the midpoint there. -/
theorem le_midpoint (hhigh : 2 * n ≤ 2 * (m * (d * 2 ^ scale)) + d * 2 ^ scale)
    (heven : 2 * n = 2 * (m * (d * 2 ^ scale)) + d * 2 ^ scale → Even m) :
    2 * n ≤ (units (scale * binade + m) + units (scale * binade + m + 1)) * d ∧
      (2 * n = (units (scale * binade + m) + units (scale * binade + m + 1)) * d → Even m) := by
  obtain ⟨hnext, hcarry⟩ := units_next hm hs
  have hmid : (m * 2 ^ scale + (m + 1) * 2 ^ scale) * d =
      2 * (m * (d * 2 ^ scale)) + d * 2 ^ scale := by ring
  have hnext := Nat.mul_le_mul_right d (Nat.add_le_add_left hnext (m * 2 ^ scale))
  rw [units_scaled hm hs]
  refine ⟨by omega, fun htie => ?_⟩
  rcases hcarry with hcarry | hm
  · rw [hcarry, hmid] at htie
    exact heven htie
  · exact hm

include hd hm hs in
/-- A significand that is nearest to a magnitude on its scale gives the nearest rank. -/
theorem rounds_scaled (hge : scale = 0 ∨ binade * (d * 2 ^ scale) ≤ n)
    (hlow : 2 * (m * (d * 2 ^ scale)) ≤ 2 * n + d * 2 ^ scale)
    (hhigh : 2 * n ≤ 2 * (m * (d * 2 ^ scale)) + d * 2 ^ scale)
    (heven : 2 * (m * (d * 2 ^ scale)) = 2 * n + d * 2 ^ scale ∨
      2 * n = 2 * (m * (d * 2 ^ scale)) + d * 2 ^ scale → Even m) :
    Rounds (n / d : ℚ) (scale * binade + m) := by
  have hparity : Even m → Even (scale * binade + m) := (even_binade.mul_left scale).add
  obtain ⟨hlow, hlowEven⟩ := midpoint_le hm hs hge hlow fun h => heven (.inl h)
  obtain ⟨hhigh, hhighEven⟩ := le_midpoint hm hs hhigh fun h => heven (.inr h)
  exact rounds_div hd hlow hhigh fun htie => hparity (htie.elim hlowEven hhighEven)

end

theorem rounds_zero {x : ℚ} (hx : 0 ≤ x) (h : 2 * x ≤ 1) : Rounds x 0 := by
  have hbelow : (units (0 - 1) + units 0 : ℚ) = 0 := by norm_num [units_zero]
  have habove : (units 0 + units (0 + 1) : ℚ) = 1 := by norm_num [units_zero, units_one]
  exact ⟨by linarith, by linarith, fun _ => Even.zero⟩

/-- What rounds to the rank of a double is at most the magnitude that comes next to the largest. -/
theorem Rounds.le {x : ℚ} {rank : Nat} (h : Rounds x rank) (hr : rank < 2047 * binade) :
    x ≤ binade * 2 ^ 2046 := by
  have hmax : units (2047 * binade) = binade * 2 ^ 2046 := by
    rw [Nat.add_mul 2046 1 binade, Nat.one_mul]
    exact units_scaled (by omega) (.inr (Nat.le_refl _))
  have hle : ∀ r, r ≤ 2047 * binade → (units r : ℚ) ≤ binade * 2 ^ 2046 := by
    intro r hr
    have hmono := strictMono_units.monotone hr
    rw [hmax] at hmono
    exact_mod_cast hmono
  have hsum := add_le_add (hle rank hr.le) (hle (rank + 1) hr)
  rw [← two_mul] at hsum
  exact le_of_mul_le_mul_left (h.high.trans hsum) two_pos

theorem odd_lastRank : ¬ Even (2047 * binade - 1) := by decide

/-- A magnitude rounds to the rank of a double if it is below the midpoint between the last of them
and the next, which goes to that next one. -/
theorem Rounds.rank_lt_iff {x : ℚ} {rank : Nat} (h : Rounds x rank) :
    rank < 2047 * binade ↔ 2 * x < units (2047 * binade - 1) + units (2047 * binade) := by
  have hpos : 1 ≤ 2047 * binade := by decide
  constructor
  · intro hr
    have hlast : (units rank : ℚ) ≤ units (2047 * binade - 1) :=
      Nat.cast_le.2 (strictMono_units.monotone (by omega))
    have hnext : (units (rank + 1) : ℚ) ≤ units (2047 * binade) :=
      Nat.cast_le.2 (strictMono_units.monotone hr)
    have hhigh := h.high
    refine lt_of_le_of_ne (by linarith) fun htie => ?_
    have hunits : units rank = units (2047 * binade - 1) :=
      Nat.cast_injective (R := ℚ) (by linarith)
    obtain rfl := strictMono_units.injective hunits
    exact odd_lastRank (h.even (.inr (by linarith)))
  · intro hx
    by_contra hr
    have hlast : (units (2047 * binade - 1) : ℚ) ≤ units (rank - 1) :=
      Nat.cast_le.2 (strictMono_units.monotone (by omega))
    have hnext : (units (2047 * binade) : ℚ) ≤ units rank :=
      Nat.cast_le.2 (strictMono_units.monotone (not_lt.1 hr))
    have hlow := h.low
    linarith

/-- The rank that rounding finds is the nearest one. -/
theorem rounds_nearestRank (n : Nat) {d : Nat} (hd : 0 < d) :
    Rounds (n / d : ℚ) (nearestRank n d) := by
  obtain ⟨scale, hscale⟩ : ∃ scale, (n / d).log2 - 52 = scale := ⟨_, rfl⟩
  have hD : 0 < d * 2 ^ scale := Nat.mul_pos hd (Nat.two_pow_pos scale)
  obtain ⟨hlow, hhigh, heven⟩ := roundHalfEven_spec n hD
  obtain ⟨hlt, hge⟩ := scale_bounds n hd hscale
  have hrank : nearestRank n d = scale * binade + roundHalfEven n (d * 2 ^ scale) := by
    rw [nearestRank, hscale]
    rfl
  rw [hrank]
  generalize roundHalfEven n (d * 2 ^ scale) = m at *
  refine rounds_scaled hd ?_ ?_ hge hlow hhigh heven
  · have hle : m * (d * 2 ^ scale) < (2 * binade + 1) * (d * 2 ^ scale) := by
      rw [Nat.add_mul]
      omega
    exact Nat.le_of_lt_succ (Nat.lt_of_mul_lt_mul_right hle)
  · refine hge.imp_right fun hge => ?_
    have hle : binade * (d * 2 ^ scale) < (m + 1) * (d * 2 ^ scale) := by
      rw [Nat.add_mul]
      omega
    exact Nat.le_of_lt_succ (Nat.lt_of_mul_lt_mul_right hle)

end Double

namespace Decimal

def inUnits (d : Decimal) : ℚ := d.digits * 10 ^ d.exponent * 2 ^ 1074

/-- Far below the least double everything rounds to zero. -/
theorem rounds_zero_of_small {d : Decimal}
    (h : d.digits = 0 ∨ d.exponent + d.digits.log2 + 1 < -330) : Double.Rounds d.inUnits 0 := by
  have hten : (0 : ℚ) < 10 ^ d.exponent := by positivity
  apply Double.rounds_zero
  · rw [inUnits]
    positivity
  · rcases h with hzero | hsmall
    · rw [inUnits, hzero, Nat.cast_zero, zero_mul, zero_mul]
      norm_num
    · have hdigits : (d.digits : ℚ) ≤ 10 ^ (d.digits.log2 + 1 : ℤ) := by
        have hlog : d.digits ≤ 10 ^ (d.digits.log2 + 1) :=
          Nat.lt_log2_self.le.trans (Nat.pow_le_pow_left (by decide) _)
        exact_mod_cast hlog
      have hvalue : d.digits * 10 ^ d.exponent ≤ (10 : ℚ) ^ (-331 : ℤ) :=
        calc (d.digits : ℚ) * 10 ^ d.exponent
            ≤ 10 ^ (d.digits.log2 + 1 : ℤ) * 10 ^ d.exponent :=
              mul_le_mul_of_nonneg_right hdigits hten.le
          _ = 10 ^ (d.digits.log2 + 1 + d.exponent) := (zpow_add₀ (by norm_num) _ _).symm
          _ ≤ 10 ^ (-331 : ℤ) := zpow_le_zpow_right₀ (by norm_num) (by omega)
      have hbound : (2 : ℚ) ^ 1075 ≤ 10 ^ 331 := by
        exact_mod_cast (by decide +kernel : (2 : Nat) ^ 1075 ≤ 10 ^ 331)
      have hdouble : (2 : ℚ) ^ 1075 = 2 * 2 ^ 1074 := pow_succ' 2 1074
      calc 2 * d.inUnits = d.digits * 10 ^ d.exponent * 2 ^ 1075 := by
            rw [inUnits, hdouble, mul_left_comm]
        _ ≤ 10 ^ (-331 : ℤ) * 10 ^ 331 := by gcongr
        _ = 1 := by rw [zpow_neg]; exact inv_mul_cancel₀ (by positivity)

theorem lt_inUnits {d : Decimal} (hd : d.digits ≠ 0) (he : 310 < d.exponent) :
    Double.binade * 2 ^ 2046 < d.inUnits := by
  have hdigits : (1 : ℚ) ≤ d.digits := by exact_mod_cast Nat.one_le_iff_ne_zero.2 hd
  have hten : (10 : ℚ) ^ (311 : ℤ) ≤ 10 ^ d.exponent :=
    zpow_le_zpow_right₀ (by norm_num) (by omega)
  have hbound : (2 : ℚ) ^ 1024 < 10 ^ (311 : ℤ) := by
    exact_mod_cast (by decide +kernel : (2 : Nat) ^ 1024 < 10 ^ 311)
  have hvalue : (2 : ℚ) ^ 1024 < d.digits * 10 ^ d.exponent :=
    hbound.trans_le (hten.trans (le_mul_of_one_le_left (by positivity) hdigits))
  have hbinade : (Double.binade : ℚ) = 2 ^ 52 := by norm_num [Double.binade]
  have hunits : (Double.binade : ℚ) * 2 ^ 2046 = 2 ^ 1024 * 2 ^ 1074 := by
    rw [hbinade, ← pow_add, ← pow_add]
  rw [inUnits, hunits]
  exact mul_lt_mul_of_pos_right hvalue (by positivity)

theorem rounds_ofNat (digits e k : Nat) :
    Double.Rounds (digits * 10 ^ Int.ofNat e * 2 ^ k)
      (Double.nearestRank (digits * Nat.pow 10 e * Nat.pow 2 k) 1) := by
  have hx : ((digits * Nat.pow 10 e * Nat.pow 2 k : Nat) / (1 : Nat) : ℚ) =
      digits * 10 ^ Int.ofNat e * 2 ^ k := by
    rw [Int.ofNat_eq_natCast, zpow_natCast, Nat.pow_eq, Nat.pow_eq]
    push_cast
    ring
  rw [← hx]
  exact Double.rounds_nearestRank _ Nat.one_pos

theorem rounds_negSucc (digits e k : Nat) :
    Double.Rounds (digits * 10 ^ Int.negSucc e * 2 ^ k)
      (Double.nearestRank (digits * Nat.pow 2 k) (Nat.pow 10 (e + 1))) := by
  have hx : ((digits * Nat.pow 2 k : Nat) / (Nat.pow 10 (e + 1) : Nat) : ℚ) =
      digits * 10 ^ Int.negSucc e * 2 ^ k := by
    rw [zpow_negSucc, Nat.pow_eq, Nat.pow_eq]
    push_cast
    ring
  rw [← hx]
  exact Double.rounds_nearestRank _ (Nat.pow_pos (by decide))

/-- The rank that a decimal rounds to, also past the last one. -/
def rank (d : Decimal) : Nat :=
  match d.exponent with
  | .ofNat e => Double.nearestRank (d.digits * Nat.pow 10 e * Nat.pow 2 1074) 1
  | .negSucc e => Double.nearestRank (d.digits * Nat.pow 2 1074) (Nat.pow 10 (e + 1))

theorem rounds_rank (d : Decimal) : Double.Rounds d.inUnits d.rank := by
  obtain ⟨negative, digits, exponent⟩ := d
  rw [inUnits, rank]
  generalize 1074 = k
  cases exponent with
  | ofNat e => exact rounds_ofNat digits e k
  | negSucc e => exact rounds_negSucc digits e k

/-- What is decided without the digits is what they would round to. -/
theorem toDouble?_eq (d : Decimal) : d.toDouble? = Double.ofRank? d.negative d.rank := by
  have hround := d.rounds_rank
  rw [toDouble?]
  split
  · rename_i hsmall
    rw [hround.eq (rounds_zero_of_small hsmall)]
    rfl
  · rename_i hno
    rw [not_or] at hno
    split
    · rename_i hlarge
      have hlast : ¬ d.rank < 2047 * Double.binade := fun hr =>
        absurd (hround.le hr) (not_le.2 (lt_inUnits hno.1 hlarge))
      rw [Double.ofRank?, dif_neg hlast]
    · rfl

/-- A decimal is read as the double whose rank it rounds to. -/
theorem toDouble?_of_rounds {d : Decimal} {rank : Nat} (hr : rank < 2047 * Double.binade)
    (h : Double.Rounds d.inUnits rank) : d.toDouble? = some ⟨d.negative, rank, hr⟩ := by
  obtain rfl := d.rounds_rank.eq h
  rw [toDouble?_eq, Double.ofRank?, dif_pos hr]

end Decimal

end ShapeAssembly
