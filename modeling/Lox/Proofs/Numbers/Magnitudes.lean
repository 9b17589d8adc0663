import Mathlib
import Lox.Number.Shortest

/-!
# Magnitudes in order

The magnitudes of the doubles can be counted off from zero, and the count of a magnitude is its bit
pattern: within a binade the mantissa goes up by one, and after its last mantissa the next binade
begins where the count goes on. Each magnitude is followed by the next one at the distance of one
unit of its own last place, also at the seam between two binades.

Halfway between two magnitudes that follow each other lies a boundary. A real number between two
boundaries is rounded to the magnitude between them, and one on a boundary to the one of its two
neighbours whose mantissa is even. So each real number is attracted by one magnitude at most.
-/

namespace Lox.Number

-- powers of natural numbers are those of the core library, under any imports
attribute [local instance (2000)] instPowNat

namespace Magnitude

/-! ## Counting -/

/-- The magnitude as a number. -/
def value (size : Magnitude) : ℚ := size.mantissa * 2 ^ size.exponent

/-- The magnitude with `k` magnitudes below it. The count does not end with the finite doubles: it
goes on as if exponents had no bound. -/
def nth (k : Nat) : Magnitude :=
  if k < 2 ^ (52 : Nat) then ⟨k, -1074⟩
  else ⟨2 ^ (52 : Nat) + k % 2 ^ (52 : Nat), (k / 2 ^ (52 : Nat) : Nat) - 1075⟩

/-- How many magnitudes are below one that `nth` lists. -/
def count (size : Magnitude) : Nat :=
  (size.exponent + 1074).toNat * 2 ^ (52 : Nat) + size.mantissa

/-- What the magnitudes that `nth` lists have in common: mantissas have 53 bits at most, and fewer
only at the least exponent. -/
structure Canonical (size : Magnitude) : Prop where
  fits : size.mantissa < 2 ^ (53 : Nat)
  least : -1074 ≤ size.exponent
  full : 2 ^ (52 : Nat) ≤ size.mantissa ∨ size.exponent = -1074

theorem canonical_nth (k : Nat) : (nth k).Canonical := by
  unfold nth
  split
  · exact ⟨by simp only; omega, by simp only; omega, .inr rfl⟩
  · exact ⟨by simp only; omega, by simp only; omega, .inl (Nat.le_add_right _ _)⟩

theorem Canonical.nth_count {size : Magnitude} (h : size.Canonical) : nth size.count = size := by
  obtain ⟨fits, least, full⟩ := h
  obtain ⟨mantissa, exponent⟩ := size
  simp only at fits least full
  unfold nth count
  simp only
  split
  · congr <;> omega
  · congr <;> omega

theorem count_nth (k : Nat) : (nth k).count = k := by
  unfold nth count
  split
  · simp only; omega
  · simp only; omega

theorem nth_inj {j k : Nat} : nth j = nth k ↔ j = k :=
  ⟨fun h => by rw [← count_nth j, h, count_nth], fun h => h ▸ rfl⟩

@[simp] theorem value_nth_zero : (nth 0).value = 0 := by simp [nth, value]

/-- Neighbours differ in the last bit of their mantissas. -/
theorem nth_mantissa_mod_two (k : Nat) : (nth k).mantissa % 2 = k % 2 := by
  unfold nth
  split
  · rfl
  · simp only; omega

/-- One more mantissa, or the first one of the next binade. -/
theorem nth_succ (k : Nat) :
    (nth (k + 1) = ⟨(nth k).mantissa + 1, (nth k).exponent⟩) ∨
    (nth k).mantissa + 1 = 2 ^ (53 : Nat) ∧
      nth (k + 1) = ⟨2 ^ (52 : Nat), (nth k).exponent + 1⟩ := by
  unfold nth
  by_cases hlast : (k + 1) % 2 ^ (52 : Nat) = 0
  · by_cases hsmall : k < 2 ^ (52 : Nat)
    · left
      rw [if_pos hsmall, if_neg (by omega)]
      simp only [mk.injEq]
      omega
    · right
      rw [if_neg hsmall, if_neg (by omega)]
      simp only [mk.injEq]
      omega
  · left
    by_cases hsmall : k < 2 ^ (52 : Nat)
    · rw [if_pos hsmall, if_pos (by omega)]
    · rw [if_neg hsmall, if_neg (by omega)]
      simp only [mk.injEq]
      omega

/-- The next magnitude is one unit of the last place away. -/
theorem value_nth_succ (k : Nat) :
    (nth (k + 1)).value = (nth k).value + 2 ^ (nth k).exponent := by
  obtain h | ⟨hlast, h⟩ := nth_succ k
  · rw [h, value, value]
    push_cast
    ring
  · have hmantissa : ((nth k).mantissa : ℚ) + 1 = 2 ^ 53 := by exact_mod_cast hlast
    have hseam : (2 : ℚ) ^ ((nth k).exponent + 1) = 2 ^ (nth k).exponent * 2 :=
      zpow_add_one₀ two_ne_zero _
    calc (nth (k + 1)).value = 2 ^ 52 * 2 ^ ((nth k).exponent + 1) := by rw [h, value]; norm_num
      _ = ((nth k).mantissa + 1) * 2 ^ (nth k).exponent := by rw [hseam, hmantissa]; ring
      _ = (nth k).value + 2 ^ (nth k).exponent := by rw [value]; ring

theorem value_nth_strictMono : StrictMono fun k => (nth k).value :=
  strictMono_nat_of_lt_succ fun k => by
    rw [value_nth_succ]
    exact lt_add_of_pos_right _ (zpow_pos two_pos _)

theorem value_nth_inj {j k : Nat} : (nth j).value = (nth k).value ↔ j = k :=
  value_nth_strictMono.injective.eq_iff

theorem value_nth_lt {j k : Nat} : (nth j).value < (nth k).value ↔ j < k :=
  value_nth_strictMono.lt_iff_lt

theorem value_nth_le {j k : Nat} : (nth j).value ≤ (nth k).value ↔ j ≤ k :=
  value_nth_strictMono.le_iff_le

theorem value_nonneg (size : Magnitude) : 0 ≤ size.value := by
  unfold value
  positivity

theorem value_eq_zero {size : Magnitude} : size.value = 0 ↔ size.mantissa = 0 := by
  have hunit : (2 : ℚ) ^ size.exponent ≠ 0 := (zpow_pos two_pos _).ne'
  rw [value, mul_eq_zero, or_iff_left hunit, Nat.cast_eq_zero]

/-- The whole number that a magnitude is. -/
theorem value_of_whole {size : Magnitude} {whole : Nat} (h : size.whole? = some whole) :
    size.value = whole := by
  unfold whole? at h
  unfold value
  split at h
  · rename_i hexponent
    obtain ⟨e, he⟩ := Int.eq_ofNat_of_zero_le hexponent
    cases h
    rw [he, Int.toNat_natCast, zpow_natCast]
    push_cast
    rfl
  · rename_i hexponent
    obtain ⟨e, he⟩ : ∃ e : Nat, size.exponent = -e := ⟨(-size.exponent).toNat, by omega⟩
    simp only [he, Int.neg_neg, Int.toNat_natCast] at h
    split at h
    · rename_i hdvd
      cases h
      have hexact : (size.mantissa : ℚ) = (size.mantissa / 2 ^ e : Nat) * 2 ^ e := by
        exact_mod_cast (Nat.div_mul_cancel (Nat.dvd_of_mod_eq_zero hdvd)).symm
      rw [he, zpow_neg, zpow_natCast, hexact]
      field_simp
    · cases h

/-! ## Boundaries -/

/-- Halfway between a magnitude and the next one. -/
def boundary (k : Nat) : ℚ := ((nth k).value + (nth (k + 1)).value) / 2

theorem lt_boundary (k : Nat) : (nth k).value < boundary k := by
  have := value_nth_lt.2 (Nat.lt_succ_self k)
  unfold boundary
  linarith

theorem boundary_lt (k : Nat) : boundary k < (nth (k + 1)).value := by
  have := value_nth_lt.2 (Nat.lt_succ_self k)
  unfold boundary
  linarith

theorem boundary_strictMono : StrictMono boundary :=
  strictMono_nat_of_lt_succ fun k => (boundary_lt k).trans (lt_boundary (k + 1))

/-- The boundary above a magnitude, in quarters of its last place. -/
theorem boundary_eq (k : Nat) :
    boundary k = (4 * (nth k).mantissa + 2) * 2 ^ ((nth k).exponent - 2) := by
  have hplace : (2 : ℚ) ^ (nth k).exponent = 2 ^ ((nth k).exponent - 2) * 4 := by
    rw [zpow_sub₀ two_ne_zero]
    norm_num
  rw [boundary, value_nth_succ, value, hplace]
  ring

/-- The boundary below a magnitude, in quarters of its last place. -/
theorem boundary_eq_below (k : Nat) :
    boundary k = (4 * (nth (k + 1)).mantissa - if (nth (k + 1)).isNarrowBelow then 1 else 2) *
      2 ^ ((nth (k + 1)).exponent - 2) := by
  have hcanonical := canonical_nth k
  rw [boundary_eq]
  obtain h | ⟨hlast, h⟩ := nth_succ k
  · have hwide : (nth (k + 1)).isNarrowBelow = false := by
      rcases hcanonical.full with hfull | hleast
      · simp only [isNarrowBelow, h, Bool.and_eq_false_iff, decide_eq_false_iff_not]
        omega
      · simp [isNarrowBelow, h, hleast]
    rw [hwide, h]
    push_cast
    ring
  · have hnarrow : (nth (k + 1)).isNarrowBelow = true := by
      have := hcanonical.least
      simp only [isNarrowBelow, h, Bool.and_eq_true, decide_eq_true_eq, true_and]
      omega
    have hmantissa : ((nth k).mantissa : ℚ) = 2 ^ 53 - 1 := by
      rw [eq_sub_iff_add_eq]
      exact_mod_cast hlast
    have hplace : (2 : ℚ) ^ ((nth k).exponent + 1 - 2) = 2 ^ ((nth k).exponent - 2) * 2 := by
      rw [← zpow_add_one₀ two_ne_zero]
      congr 1
      omega
    rw [if_pos hnarrow, h, hmantissa, hplace]
    push_cast
    ring

/-- Rounding takes `x` to the magnitude with count `k`: no boundary is between them, and if `x` is on
a boundary itself then the mantissa is even. -/
structure Attracts (k : Nat) (x : ℚ) : Prop where
  above : ∀ j < k, boundary j ≤ x
  below : x ≤ boundary k
  even : ∀ j, x = boundary j → k % 2 = 0

/-- **No number is rounded to two magnitudes.** -/
theorem Attracts.unique {j k : Nat} {x : ℚ} (hj : Attracts j x) (hk : Attracts k x) : j = k := by
  wlog hlt : j < k generalizing j k
  · rcases Nat.lt_or_ge k j with h | h
    · exact (this hk hj h).symm
    · omega
  have hseam : x = boundary j := le_antisymm hj.below (hk.above j hlt)
  have hnext : k = j + 1 := by
    refine le_antisymm (Nat.le_of_not_lt fun h => ?_) hlt
    have := hk.above (j + 1) h
    have := boundary_strictMono (Nat.lt_succ_self j)
    linarith
  have := hj.even j hseam
  have := hk.even j hseam
  omega

/-- A number strictly between the boundaries of a magnitude is rounded to it. -/
theorem Attracts.of_lt {k : Nat} {x : ℚ} (above : ∀ j, k = j + 1 → boundary j < x)
    (below : x < boundary k) : Attracts k x := by
  have habove : ∀ j < k, boundary j < x := by
    intro j hj
    obtain ⟨i, rfl⟩ : ∃ i, k = i + 1 := ⟨k - 1, by omega⟩
    exact (boundary_strictMono.monotone (Nat.le_of_lt_succ hj)).trans_lt (above i rfl)
  refine ⟨fun j hj => (habove j hj).le, below.le, fun j hj => ?_⟩
  rcases Nat.lt_or_ge j k with h | h
  · exact absurd hj (habove j h).ne'
  · exact absurd hj (below.trans_le (boundary_strictMono.monotone h)).ne

/-- A number on a boundary, or between the boundaries of a magnitude with an even mantissa. -/
theorem Attracts.of_le {k : Nat} {x : ℚ} (heven : k % 2 = 0)
    (above : ∀ j, k = j + 1 → boundary j ≤ x) (below : x ≤ boundary k) : Attracts k x := by
  refine ⟨fun j hj => ?_, below, fun _ _ => heven⟩
  obtain ⟨i, rfl⟩ : ∃ i, k = i + 1 := ⟨k - 1, by omega⟩
  exact (boundary_strictMono.monotone (Nat.le_of_lt_succ hj)).trans (above i rfl)

/-- Magnitudes are rounded to themselves. -/
theorem attracts_value (k : Nat) : Attracts k (nth k).value := by
  refine .of_lt ?_ (lt_boundary k)
  rintro j rfl
  exact boundary_lt j

/-! ## Rounding is to the nearest -/

variable {j k : Nat} {x : ℚ}

/-- Of two numbers, the one on the same side of their middle is the nearer. -/
private theorem abs_sub_le_of_middle {a b x : ℚ} (hab : a ≤ b) (hx : x ≤ (a + b) / 2) :
    |a - x| ≤ |b - x| ∧ (|a - x| = |b - x| → a = b ∨ x = (a + b) / 2) := by
  have hb : |b - x| = b - x := abs_of_nonneg (by linarith)
  rw [hb]
  rcases abs_cases (a - x) with ⟨ha, _⟩ | ⟨ha, _⟩ <;> rw [ha]
  · exact ⟨by linarith, fun h => .inl (by linarith)⟩
  · exact ⟨by linarith, fun h => .inr (by linarith)⟩

/-- What a number is rounded to is nearest to it among all magnitudes. If another one is as near,
the mantissa is even. -/
theorem Attracts.nearest (h : Attracts k x) (j : Nat) :
    |(nth k).value - x| ≤ |(nth j).value - x| ∧
    (|(nth k).value - x| = |(nth j).value - x| → j = k ∨ k % 2 = 0) := by
  rcases lt_trichotomy j k with hlt | rfl | hlt
  · obtain ⟨i, rfl⟩ : ∃ i, k = i + 1 := ⟨k - 1, by omega⟩
    have hi : boundary i ≤ x := h.above i (Nat.lt_succ_self i)
    have hji : (nth j).value ≤ (nth i).value := value_nth_le.2 (by omega)
    have hmiddle : ((nth j).value + (nth (i + 1)).value) / 2 ≤ boundary i := by
      unfold boundary
      linarith
    obtain ⟨hle, htie⟩ := abs_sub_le_of_middle (x := -x) (a := -(nth (i + 1)).value)
      (b := -(nth j).value) (by linarith [value_nth_lt.2 hlt]) (by linarith)
    have hflip (a : ℚ) : |-a - -x| = |a - x| := by rw [← abs_neg]; ring_nf
    rw [hflip, hflip] at hle htie
    refine ⟨hle, fun hsame => .inr ?_⟩
    rcases htie hsame with heq | heq
    · exact absurd (value_nth_inj.1 (neg_inj.1 heq)) hlt.ne'
    · exact h.even i (le_antisymm (by linarith) hi)
  · exact ⟨le_refl _, fun _ => .inl rfl⟩
  · have hkj : (nth (k + 1)).value ≤ (nth j).value := value_nth_le.2 hlt
    have hmiddle : boundary k ≤ ((nth k).value + (nth j).value) / 2 := by
      unfold boundary
      linarith
    obtain ⟨hle, htie⟩ := abs_sub_le_of_middle (x := x) (a := (nth k).value)
      (b := (nth j).value) (value_nth_le.2 hlt.le) (h.below.trans hmiddle)
    refine ⟨hle, fun hsame => .inr ?_⟩
    rcases htie hsame with heq | heq
    · exact absurd (value_nth_inj.1 heq) hlt.ne
    · exact h.even k (le_antisymm h.below (by linarith))

/-- Two magnitudes that are both nearest among the magnitudes up to them are the same or neighbours. -/
theorem eq_or_odd_of_nearest (hj : ∀ i ≤ max j k, |(nth j).value - x| ≤ |(nth i).value - x|)
    (hk : ∀ i ≤ max j k, |(nth k).value - x| ≤ |(nth i).value - x|) : j = k ∨ (j + k) % 2 = 1 := by
  wlog hlt : j < k generalizing j k
  · rcases Nat.lt_or_ge k j with h | h
    · have := this (by rwa [max_comm]) (by rwa [max_comm]) h
      omega
    · exact .inl (by omega)
  right
  suffices hnext : k = j + 1 by omega
  by_contra hne
  have hsame := le_antisymm (hj k (le_max_right _ _)) (hk j (le_max_left _ _))
  have hbetween := hj (j + 1) (by omega)
  have hbetween' := hk (j + 1) (by omega)
  have h1 := value_nth_lt.2 (Nat.lt_succ_self j)
  have h2 := value_nth_lt.2 (show j + 1 < k by omega)
  rcases abs_cases ((nth j).value - x) with ⟨ha, _⟩ | ⟨ha, _⟩ <;>
    rcases abs_cases ((nth k).value - x) with ⟨hb, _⟩ | ⟨hb, _⟩ <;>
    rcases abs_cases ((nth (j + 1)).value - x) with ⟨hc, _⟩ | ⟨hc, _⟩ <;>
    rw [ha, hb] at hsame <;> rw [ha, hc] at hbetween <;> rw [hb, hc] at hbetween' <;> linarith

end Magnitude

end Lox.Number
