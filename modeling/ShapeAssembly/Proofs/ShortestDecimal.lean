import ShapeAssembly.Decimal.Shortest
import ShapeAssembly.Proofs.Rounding

namespace ShapeAssembly

namespace Double

theorem pow_five_pos (k : Nat) : 0 < Nat.pow 5 k := Nat.pow_pos (by decide)

theorem rounds_of_roundsTo {rank x : Nat} (h : roundsTo rank x) :
    Rounds (x / (2 * Nat.pow 5 1074 : Nat) : ℚ) rank := by
  unfold roundsTo at h
  generalize 1074 = e at h ⊢
  have hpos := pow_five_pos e
  generalize Nat.pow 5 e = k at h hpos ⊢
  have hprev : units (rank - 1) ≤ units rank := strictMono_units.monotone (Nat.sub_le rank 1)
  have hnext : units rank ≤ units (rank + 1) := strictMono_units.monotone (Nat.le_succ rank)
  have hmid : (units (rank - 1) + units rank) * k ≤ (units rank + units (rank + 1)) * k :=
    Nat.mul_le_mul_right k (Nat.add_le_add hprev hnext)
  have hdouble : ∀ a, a * (2 * k) = 2 * (a * k) := fun a => Nat.mul_left_comm a 2 k
  simp only [Bool.or_eq_true, Bool.and_eq_true, decide_eq_true_eq] at h
  apply rounds_div (Nat.mul_pos two_pos hpos)
  · rw [hdouble]
    omega
  · rw [hdouble]
    omega
  · rw [hdouble, hdouble, Nat.even_iff]
    omega

theorem roundsTo_twice {rank : Nat} (h : rank ≠ 0) : roundsTo rank (twice rank) := by
  have hprev : units (rank - 1) < units rank := strictMono_units (by omega)
  have hnext : units rank < units (rank + 1) := strictMono_units (Nat.lt_succ_self rank)
  unfold roundsTo twice
  generalize 1074 = e
  have hpos := pow_five_pos e
  generalize Nat.pow 5 e = k at hpos ⊢
  have hlow := Nat.mul_lt_mul_of_pos_right (Nat.add_lt_add_right hprev (units rank)) hpos
  have hhigh := Nat.mul_lt_mul_of_pos_right (Nat.add_lt_add_left hnext (units rank)) hpos
  rw [← Nat.two_mul] at hlow hhigh
  simp [hlow, hhigh]

/-- The digits that are found round to the rank on their grid. -/
theorem roundsTo_coarsest {rank : Nat} (h : rank ≠ 0) (limit : Nat) :
    roundsTo rank ((coarsest rank limit).1 * (2 * Nat.pow 10 (coarsest rank limit).2)) := by
  unfold coarsest
  dsimp only
  generalize hfound : (List.range limit).reverse.findSome? _ = found?
  cases found? with
  | none =>
    have htwice : twice rank / 2 * (2 * Nat.pow 10 0) = twice rank := by
      unfold twice
      generalize Nat.pow 5 1074 = k
      rw [Nat.mul_assoc, Nat.mul_div_cancel_left _ two_pos]
      exact Nat.mul_comm _ _
    rw [Option.getD_none, htwice]
    exact roundsTo_twice h
  | some p =>
    obtain ⟨j, -, hj⟩ := List.exists_of_findSome?_eq_some hfound
    obtain ⟨m, hm, rfl⟩ := Option.map_eq_some_iff.1 hj
    rw [onGrid?] at hm
    have hround := List.find?_some hm
    exact hround

theorem grid_eq (digits j k : Nat) :
    (digits * 10 ^ (j - k : ℤ) * 2 ^ k : ℚ) =
      (digits * (2 * Nat.pow 10 j) : Nat) / (2 * Nat.pow 5 k : Nat) := by
  have hten : (10 : ℚ) ^ k = 2 ^ k * 5 ^ k := by rw [← mul_pow]; norm_num
  rw [Nat.pow_eq, Nat.pow_eq, zpow_sub₀ (by norm_num), zpow_natCast, zpow_natCast, hten]
  push_cast
  field_simp

theorem inUnits_grid (negative : Bool) (digits j : Nat) :
    Decimal.inUnits ⟨negative, digits, j - 1074⟩ =
      (digits * (2 * Nat.pow 10 j) : Nat) / (2 * Nat.pow 5 1074 : Nat) := by
  have hcast : (1074 : ℤ) = (1074 : Nat) := rfl
  rw [Decimal.inUnits, hcast]
  generalize 1074 = k
  exact grid_eq digits j k

theorem shortest_of_coarsest {d : Double} (h : d.rank ≠ 0) {digits j : Nat}
    (hc : coarsest d.rank ((twice d.rank).log2 / 3 + 1) = (digits, j)) :
    d.shortest = ⟨d.negative, digits, j - 1074⟩ := by
  rw [shortest, if_neg h, hc]

theorem shortest_of_zero {d : Double} (h : d.rank = 0) : d.shortest = ⟨d.negative, 0, 0⟩ := by
  rw [shortest, if_pos h]

theorem shortest_negative (d : Double) : d.shortest.negative = d.negative := by
  by_cases h : d.rank = 0
  · rw [shortest_of_zero h]
  · cases hc : coarsest d.rank ((twice d.rank).log2 / 3 + 1) with
    | mk digits j => rw [shortest_of_coarsest h hc]

/-- The fewest digits round to the double they are the digits of. -/
theorem rounds_shortest (d : Double) : Rounds d.shortest.inUnits d.rank := by
  by_cases h : d.rank = 0
  · rw [shortest_of_zero h, h]
    exact Decimal.rounds_zero_of_small (.inl rfl)
  · have hround := roundsTo_coarsest h ((twice d.rank).log2 / 3 + 1)
    cases hc : coarsest d.rank ((twice d.rank).log2 / 3 + 1) with
    | mk digits j =>
      rw [hc] at hround
      rw [shortest_of_coarsest h hc, inUnits_grid]
      exact rounds_of_roundsTo hround

/-- A decimal of the same sign and magnitude as the fewest digits of a double is read as it. -/
theorem toDouble?_of_shortest {d : Double} {decimal : Decimal}
    (hn : decimal.negative = d.shortest.negative) (hu : decimal.inUnits = d.shortest.inUnits) :
    decimal.toDouble? = some d := by
  have hrounds := rounds_shortest d
  rw [← hu] at hrounds
  rw [Decimal.toDouble?_of_rounds d.rank_lt hrounds, hn, shortest_negative]

end Double

end ShapeAssembly
