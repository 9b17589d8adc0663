import Lox.Proofs.Numbers.Magnitudes

/-!
# The shortest decimal is rounded back

The search for the shortest decimal compares whole numbers only: the candidate, the magnitude and the
ends of its interval, all in one unit that is fine enough for each of them. In this unit the ends are
the boundaries of the magnitude, and so a candidate in the interval is a decimal that the magnitude
attracts. The exact decimal, with which the search ends at the latest, is attracted as well.
-/

namespace Lox.Number

-- powers of natural numbers are those of the core library, under any imports
attribute [local instance (2000)] instPowNat

/-- The decimal as a number. -/
def Decimal.value (d : Decimal) : ℚ := d.digits * 10 ^ d.place

namespace Magnitude

/-- How many units of the grid make one. -/
def gridUnits (size : Magnitude) (place : Int) : ℚ :=
  2 ^ (-(size.exponent - 2)).toNat * 10 ^ (-place).toNat

theorem gridUnits_pos (size : Magnitude) (place : Int) : 0 < size.gridUnits place := by
  unfold gridUnits
  positivity

/-- Of an exponent and its opposite one at most is above zero. -/
private theorem zpow_mul_pow_toNat {b : ℚ} (hb : b ≠ 0) (e : Int) :
    b ^ e * b ^ (-e).toNat = b ^ e.toNat := by
  rw [← zpow_natCast, ← zpow_natCast, ← zpow_add₀ hb]
  congr 1
  omega

/-- Multiples of the step are the decimals of the place. -/
theorem mul_step (size : Magnitude) (digits : Nat) (place : Int) :
    ((digits * (size.onGrid place).step : Nat) : ℚ)
      = (Decimal.value ⟨digits, place⟩) * size.gridUnits place := by
  have hten := zpow_mul_pow_toNat (b := 10) (by norm_num) place
  simp only [onGrid, Decimal.value, gridUnits]
  push_cast
  rw [← hten]
  ring

/-- Quarters of the last place are whole numbers of units. -/
theorem mul_scale (size : Magnitude) (quarters : ℚ) (place : Int) :
    quarters * (2 ^ (size.exponent - 2).toNat * 10 ^ (-place).toNat)
      = quarters * 2 ^ (size.exponent - 2) * size.gridUnits place := by
  rw [gridUnits, ← zpow_mul_pow_toNat two_ne_zero]
  ring

variable {k digits : Nat} {place : Int}

/-- The upper end of the interval is the boundary above the magnitude. -/
theorem onGrid_high (k : Nat) (place : Int) :
    (((nth k).onGrid place).high : ℚ) = boundary k * (nth k).gridUnits place := by
  rw [boundary_eq, ← mul_scale]
  simp only [onGrid]
  push_cast
  ring

/-- The lower end of the interval is the boundary below the magnitude. -/
theorem onGrid_low (k : Nat) (place : Int) :
    (((nth (k + 1)).onGrid place).low : ℚ) = boundary k * (nth (k + 1)).gridUnits place := by
  have hpos : 0 < (nth (k + 1)).mantissa := by
    rw [Nat.pos_iff_ne_zero, ne_eq, ← value_eq_zero]
    exact (value_nth_zero ▸ value_nth_lt.2 (Nat.succ_pos k)).ne'
  rw [boundary_eq_below, ← mul_scale]
  simp only [onGrid]
  split
  · rw [Nat.cast_mul, Nat.cast_sub (by omega)]
    push_cast
    ring
  · rw [Nat.cast_mul, Nat.cast_sub (by omega)]
    push_cast
    ring

/-- A candidate in the interval is attracted. -/
theorem attracts_of_owns
    (h : ((nth k).onGrid place).owns (digits * ((nth k).onGrid place).step) = true) :
    Attracts k (Decimal.value ⟨digits, place⟩) := by
  have hunits := (nth k).gridUnits_pos place
  have hparity : (nth k).mantissa % 2 = k % 2 := nth_mantissa_mod_two k
  have hclosed : ((nth k).onGrid place).closed = decide (k % 2 = 0) := by
    simp only [onGrid, hparity]
  rw [OnGrid.owns, hclosed] at h
  by_cases heven : k % 2 = 0
  · simp only [heven, decide_true, if_true, Bool.and_eq_true, decide_eq_true_eq,
      ← Nat.cast_le (α := ℚ), mul_step] at h
    refine .of_le heven ?_ ?_
    · rintro j rfl
      rw [onGrid_low] at h
      exact le_of_mul_le_mul_right h.1 hunits
    · rw [onGrid_high] at h
      exact le_of_mul_le_mul_right h.2 hunits
  · simp only [heven, decide_false, Bool.false_eq_true, if_false, Bool.and_eq_true,
      decide_eq_true_eq, ← Nat.cast_lt (α := ℚ), mul_step] at h
    refine .of_lt ?_ ?_
    · rintro j rfl
      rw [onGrid_low] at h
      exact lt_of_mul_lt_mul_right h.1 hunits.le
    · rw [onGrid_high] at h
      exact lt_of_mul_lt_mul_right h.2 hunits.le

/-- A neighbour is taken only if it is in the interval. -/
theorem OnGrid.owns_of_nearest {g : OnGrid} {digits : Nat} (h : g.nearest? = some digits) :
    g.owns (digits * g.step) = true := by
  unfold OnGrid.nearest? at h
  simp only at h
  split at h
  · rename_i hdown hup
    cases h
    split <;> assumption
  · rename_i hdown hup
    cases h
    exact hdown
  · rename_i hdown hup
    cases h
    exact hup
  · cases h

/-- The exact decimal is the magnitude. -/
theorem value_exactDecimal (size : Magnitude) : size.exactDecimal.value = size.value := by
  unfold exactDecimal value Decimal.value
  split
  · rename_i hexponent
    obtain ⟨e, he⟩ := Int.eq_ofNat_of_zero_le hexponent
    simp only [he, Int.toNat_natCast, zpow_natCast, zpow_zero, mul_one]
    push_cast
    rfl
  · rename_i hexponent
    obtain ⟨e, he⟩ : ∃ e : Nat, size.exponent = -e := ⟨(-size.exponent).toNat, by omega⟩
    simp only [he, Int.neg_neg, Int.toNat_natCast, zpow_neg, zpow_natCast]
    have hten : (10 : ℚ) ^ e = 5 ^ e * 2 ^ e := by rw [← mul_pow]; norm_num
    rw [hten]
    push_cast
    field_simp

theorem attracts_shortestFrom (k : Nat) :
    ∀ (finer : Nat) (place : Int), Attracts k ((nth k).shortestFrom finer place).value
  | 0, place => by
    rw [shortestFrom, value_exactDecimal]
    exact attracts_value k
  | finer + 1, place => by
    rw [shortestFrom]
    split
    · rename_i digits hnearest
      exact attracts_of_owns (OnGrid.owns_of_nearest hnearest)
    · exact attracts_shortestFrom k finer (place - 1)

/-- **The shortest decimal of a magnitude is rounded to it.** -/
theorem attracts_shortest (k : Nat) : Attracts k (nth k).shortest.value := by
  unfold shortest
  split
  · rename_i hzero
    have hvalue : (nth k).value = Decimal.value ⟨0, 0⟩ := by
      rw [value_eq_zero.2 hzero, Decimal.value, Nat.cast_zero, zero_mul]
    exact hvalue ▸ attracts_value k
  · exact attracts_shortestFrom k 24 _

end Magnitude

end Lox.Number
