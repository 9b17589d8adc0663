import Lox.Proofs.Numbers.Doubles

/-!
# Reading decimals

Literals become doubles by one division: of the number that their digits write by a power of ten. The
quotient is cut off after enough bits, and one more bit together with whether anything is lost behind
it says on which side of which boundary the exact quotient lies. So the double is the one that the
exact quotient is rounded to.
-/

namespace Lox.Number

-- powers of natural numbers are those of the core library, under any imports
attribute [local instance (2000)] instPowNat

open Float.Model (UnpackedFloat Format totalExponent)
open Float.Model.UnpackedFloat

/-! ## Bits that are cut off -/

/-- The mantissa is `y` cut off behind the point, the round bit is the first bit behind the point, and
the sticky bit says whether anything is left behind that one. -/
def Holds (em : ExtendedMantissa) (y : ℚ) : Prop :=
  ∃ lost : ℚ, 0 ≤ lost ∧ lost < 1 / 2 ∧ (em.stickyBit = true ↔ lost ≠ 0) ∧
    y = em.mantissa + (em.roundBit.toNat : ℚ) / 2 + lost

theorem holds_exact (m : Nat) : Holds (.ofMantissaAndAccuracy m .exact) m :=
  ⟨0, le_refl _, by norm_num, by simp [ExtendedMantissa.ofMantissaAndAccuracy],
    by simp [ExtendedMantissa.ofMantissaAndAccuracy]⟩

theorem holds_fraction {m num den : Nat} (h : num < den) :
    Holds (.ofMantissaAndAccuracy m (accuracyOfFraction num den)) (m + num / den) := by
  have hden : (0 : ℚ) < den := by exact_mod_cast Nat.zero_lt_of_lt h
  have hlt : (num : ℚ) < den := by exact_mod_cast h
  unfold accuracyOfFraction
  split
  · rename_i hzero
    simpa [hzero] using holds_exact m
  rename_i hpos
  have hnum : (0 : ℚ) < num := by exact_mod_cast Nat.pos_of_ne_zero hpos
  rcases hcompare : compare (2 * num) den
  · have hhalf : (2 * num : ℚ) < den := by exact_mod_cast Nat.compare_eq_lt.1 hcompare
    refine ⟨num / den, by positivity, ?_, ?_, ?_⟩
    · rw [div_lt_div_iff₀ hden two_pos]
      linarith
    · simp [ExtendedMantissa.ofMantissaAndAccuracy, hnum.ne', hden.ne']
    · simp [ExtendedMantissa.ofMantissaAndAccuracy]
  · have hhalf : (2 * num : ℚ) = den := by exact_mod_cast Nat.compare_eq_eq.1 hcompare
    refine ⟨0, le_refl _, by norm_num, by simp [ExtendedMantissa.ofMantissaAndAccuracy], ?_⟩
    simp only [ExtendedMantissa.ofMantissaAndAccuracy, Bool.toNat_true, add_zero, ← hhalf]
    push_cast
    field_simp
  · have hhalf : (den : ℚ) < 2 * num := by exact_mod_cast Nat.compare_eq_gt.1 hcompare
    have hover : (1 : ℚ) / 2 < num / den := by
      rw [div_lt_div_iff₀ two_pos hden]
      linarith
    have hunder : (num : ℚ) / den < 1 := (div_lt_one hden).2 hlt
    refine ⟨num / den - 1 / 2, by linarith, by linarith, ?_, ?_⟩
    · simp only [ExtendedMantissa.ofMantissaAndAccuracy, true_iff]
      linarith
    · simp only [ExtendedMantissa.ofMantissaAndAccuracy, Bool.toNat_true]
      push_cast
      ring

theorem Holds.shiftRightOne {em : ExtendedMantissa} {y : ℚ} (h : Holds em y) :
    Holds em.shiftRightOne (y / 2) := by
  obtain ⟨lost, hnonneg, hlt, hsticky, rfl⟩ := h
  have hsplit : (em.mantissa : ℚ) = 2 * (em.mantissa / 2 : Nat) + (em.mantissa % 2 : Nat) := by
    exact_mod_cast (Nat.div_add_mod em.mantissa 2).symm
  have hbit : (em.mantissa % 2 != 0).toNat = em.mantissa % 2 := by
    rcases Nat.mod_two_eq_zero_or_one em.mantissa with h | h <;> rw [h] <;> rfl
  refine ⟨((em.roundBit.toNat : ℚ) / 2 + lost) / 2, by positivity, ?_, ?_, ?_⟩
  · have : (em.roundBit.toNat : ℚ) ≤ 1 := by exact_mod_cast Bool.toNat_le _
    linarith
  · cases hround : em.roundBit
    · simp [ExtendedMantissa.shiftRightOne, hround, hsticky]
    · simp only [ExtendedMantissa.shiftRightOne, hround, Bool.true_or, Bool.toNat_true, true_iff]
      push_cast
      linarith
  · simp only [ExtendedMantissa.shiftRightOne, hbit, hsplit]
    ring

theorem Holds.shiftRight {em : ExtendedMantissa} {y : ℚ} (h : Holds em y) :
    ∀ n : Nat, Holds (em >>> n) (y / 2 ^ n)
  | 0 => by
    rw [pow_zero, div_one]
    exact h
  | n + 1 => by
    have hstep : Holds (em >>> n).shiftRightOne (y / 2 ^ n / 2) := (h.shiftRight n).shiftRightOne
    rwa [div_div, ← pow_succ] at hstep

theorem mantissa_shiftRight (em : ExtendedMantissa) :
    ∀ n : Nat, (em >>> n).mantissa = em.mantissa / 2 ^ n
  | 0 => by rw [Nat.pow_zero, Nat.div_one]; rfl
  | n + 1 => by
    show (em >>> n).mantissa / 2 = _
    rw [mantissa_shiftRight em n, Nat.div_div_eq_div_mul, Nat.pow_succ]

/-- Rounding to the nearest mantissa, and to the even one of two that are equally near. -/
theorem Holds.rounded {em : ExtendedMantissa} {y : ℚ} (h : Holds em y) :
    em.roundedMantissa = em.mantissa ∧ (em.mantissa : ℚ) ≤ y ∧ y ≤ em.mantissa + 1 / 2 ∧
      (y = em.mantissa + 1 / 2 → em.mantissa % 2 = 0) ∨
    em.roundedMantissa = em.mantissa + 1 ∧ (em.mantissa : ℚ) + 1 / 2 ≤ y ∧
      y < em.mantissa + 1 ∧ (y = em.mantissa + 1 / 2 → em.mantissa % 2 = 1) := by
  obtain ⟨lost, hnonneg, hlt, hsticky, rfl⟩ := h
  obtain ⟨m, round, sticky⟩ := em
  simp only at hsticky ⊢
  unfold ExtendedMantissa.roundedMantissa
  cases round
  · left
    refine ⟨by cases sticky <;> rfl, by simp [hnonneg], by simp; linarith, fun h => ?_⟩
    simp at h
    linarith
  · cases sticky
    · have hzero : lost = 0 := by simpa using hsticky
      have hround : (ExtendedMantissa.accuracy ⟨m, true, false⟩).roundToNearestEven m
          = m + m % 2 := rfl
      rw [hround, hzero]
      rcases Nat.mod_two_eq_zero_or_one m with hbit | hbit
      · exact .inl ⟨by rw [hbit, Nat.add_zero], by simp, by simp, fun _ => hbit⟩
      · exact .inr ⟨by rw [hbit], by simp, by simp; norm_num, fun _ => hbit⟩
    · have hne : lost ≠ 0 := by simpa using hsticky
      refine .inr ⟨rfl, by simp [hnonneg], by simp; linarith, fun h => ?_⟩
      simp at h
      exact absurd h hne

/-! ## Rounding -/

/-- The exponent that the rounded mantissa gets. -/
theorem targetExponent_eq (mantissa : Nat) (exponent : Int) :
    Format.binary64.targetExponent (totalExponent mantissa exponent)
      = max (mantissa.log2 + exponent - 52) (-1074) := by
  have hbits : Format.binary64.mantissaBits = 53 := rfl
  have hleast : Format.binary64.minExponent = -1074 := rfl
  rw [Format.targetExponent, totalExponent, hbits, hleast]
  congr 1
  omega

/-- What is left of a mantissa at its target exponent. -/
theorem canonical_of_target {mantissa : Nat} {exponent target : Int}
    (htarget : target = max (mantissa.log2 + exponent - 52) (-1074)) (hplace : exponent ≤ target) :
    (⟨mantissa / 2 ^ (target - exponent).toNat, target⟩ : Magnitude).Canonical := by
  have hbelow : mantissa < 2 ^ (mantissa.log2 + 1) := Nat.lt_log2_self
  refine ⟨?_, by simp only; omega, ?_⟩
  · rw [Nat.div_lt_iff_lt_mul (Nat.two_pow_pos _), ← Nat.pow_add]
    exact hbelow.trans_le (Nat.pow_le_pow_right two_pos (by omega))
  · by_cases hleast : target = -1074
    · exact .inr hleast
    have hexponent : target = mantissa.log2 + exponent - 52 := by omega
    have hlog : 52 ≤ mantissa.log2 := by omega
    have hshift : (target - exponent).toNat = mantissa.log2 - 52 := by omega
    have hpos : mantissa ≠ 0 := by
      rintro rfl
      simp at hlog
    left
    simp only
    rw [hshift, Nat.le_div_iff_mul_le (Nat.two_pow_pos _), ← Nat.pow_add]
    exact (Nat.pow_le_pow_right two_pos (by omega)).trans (Nat.log2_self_le hpos)

/-- A number whose magnitude, cut off at the mantissa, is canonical is rounded to that magnitude or
to the next one. -/
theorem attracts_of_holds {em : ExtendedMantissa} {exponent : Int} {y : ℚ} (h : Holds em y)
    (hcanonical : (⟨em.mantissa, exponent⟩ : Magnitude).Canonical) :
    Magnitude.Attracts ((exponent + 1074).toNat * 2 ^ (52 : Nat) + em.roundedMantissa)
      (y * 2 ^ exponent) := by
  have hunit : (0 : ℚ) < 2 ^ exponent := zpow_pos two_pos _
  let k := Magnitude.count ⟨em.mantissa, exponent⟩
  have hk : Magnitude.nth k = ⟨em.mantissa, exponent⟩ := hcanonical.nth_count
  have hvalue : (Magnitude.nth k).value = em.mantissa * 2 ^ exponent := by rw [hk, Magnitude.value]
  have hnext : (Magnitude.nth (k + 1)).value = (em.mantissa + 1) * 2 ^ exponent := by
    rw [Magnitude.value_nth_succ, hvalue, hk]
    ring
  have hboundary : Magnitude.boundary k = (em.mantissa + 1 / 2) * 2 ^ exponent := by
    rw [Magnitude.boundary, hvalue, hnext]
    ring
  have hparity : em.mantissa % 2 = k % 2 := by
    rw [← Magnitude.nth_mantissa_mod_two k, hk]
  rcases h.rounded with ⟨hround, hlow, hhigh, htie⟩ | ⟨hround, hlow, hhigh, htie⟩
  · rw [hround]
    have habove (j : Nat) (hj : k = j + 1) : Magnitude.boundary j < y * 2 ^ exponent := by
      have hbelow := Magnitude.boundary_lt j
      rw [← hj, hvalue] at hbelow
      exact hbelow.trans_le (mul_le_mul_of_nonneg_right hlow hunit.le)
    by_cases heq : y = em.mantissa + 1 / 2
    · refine .of_le (hparity ▸ htie heq) (fun j hj => (habove j hj).le) ?_
      exact hboundary ▸ mul_le_mul_of_nonneg_right hhigh hunit.le
    · refine .of_lt habove ?_
      exact hboundary ▸ mul_lt_mul_of_pos_right (lt_of_le_of_ne hhigh heq) hunit
  · rw [hround, ← Nat.add_assoc]
    have hbelow : y * 2 ^ exponent < Magnitude.boundary (k + 1) :=
      (hnext ▸ mul_lt_mul_of_pos_right hhigh hunit).trans (Magnitude.lt_boundary (k + 1))
    by_cases heq : y = em.mantissa + 1 / 2
    · refine .of_le ?_ (fun j hj => ?_) hbelow.le
      · have := htie heq
        show (k + 1) % 2 = 0
        omega
      · obtain rfl : k = j := Nat.succ.inj hj
        exact hboundary ▸ mul_le_mul_of_nonneg_right hlow hunit.le
    · refine .of_lt (fun j hj => ?_) hbelow
      obtain rfl : k = j := Nat.succ.inj hj
      exact hboundary ▸ mul_lt_mul_of_pos_right (lt_of_le_of_ne hlow (Ne.symm heq)) hunit

/-- Shifting cuts off bits. -/
theorem shiftToTargetExponent_eq (mantissa : Nat) (exponent : Int) (accuracy : Accuracy) :
    shiftToTargetExponent .binary64 mantissa exponent accuracy =
      let shift := (max (mantissa.log2 + exponent - 52) (-1074) - exponent).toNat
      (ExtendedMantissa.ofMantissaAndAccuracy mantissa accuracy >>> shift, exponent + shift) := by
  rw [shiftToTargetExponent, targetExponent_eq]
  rfl

theorem mantissa_ofMantissaAndAccuracy (mantissa : Nat) (accuracy : Accuracy) :
    (ExtendedMantissa.ofMantissaAndAccuracy mantissa accuracy).mantissa = mantissa := by
  rcases accuracy with _ | (_ | _ | _) <;> rfl

/-- A mantissa that has become too large by one is carried over to the next exponent. -/
theorem nth_of_rounded {mantissa : Nat} {exponent : Int} (hmantissa : mantissa ≤ 2 ^ (53 : Nat))
    (hleast : -1074 ≤ exponent) (hfull : 2 ^ (52 : Nat) ≤ mantissa ∨ exponent = -1074) :
    Magnitude.nth ((exponent + 1074).toNat * 2 ^ (52 : Nat) + mantissa) =
      ⟨(shiftToTargetExponent .binary64 mantissa exponent .exact).1.mantissa,
        (shiftToTargetExponent .binary64 mantissa exponent .exact).2⟩ := by
  simp only [shiftToTargetExponent_eq, mantissa_shiftRight, mantissa_ofMantissaAndAccuracy]
  rcases Nat.eq_or_lt_of_le hmantissa with heq | hlt
  · have hlog : mantissa.log2 = 53 := by rw [heq]; exact Nat.log2_two_pow
    have hshift : (max (mantissa.log2 + exponent - 52) (-1074) - exponent).toNat = 1 := by
      rw [hlog]
      omega
    have hcanonical : (⟨2 ^ (52 : Nat), exponent + 1⟩ : Magnitude).Canonical :=
      ⟨Nat.pow_lt_pow_right one_lt_two (by decide), by simp only; omega, .inl (Nat.le_refl _)⟩
    have hcount : (exponent + 1074).toNat * 2 ^ (52 : Nat) + mantissa
        = Magnitude.count ⟨2 ^ (52 : Nat), exponent + 1⟩ := by
      simp only [Magnitude.count]
      omega
    rw [hcount, hcanonical.nth_count, hshift, heq]
    rfl
  · have hlog : mantissa.log2 ≤ 52 := by
      by_cases hzero : mantissa = 0
      · rw [hzero]
        decide
      · exact Nat.le_of_lt_succ ((Nat.log2_lt hzero).2 hlt)
    have hshift : (max (mantissa.log2 + exponent - 52) (-1074) - exponent).toNat = 0 := by omega
    have hcanonical : (⟨mantissa, exponent⟩ : Magnitude).Canonical := ⟨hlt, hleast, hfull⟩
    rw [hshift, Nat.pow_zero, Nat.div_one, Int.natCast_zero, Int.add_zero]
    exact hcanonical.nth_count

/-- Rounding gives the magnitude that attracts the exact number. -/
theorem roundWithAccuracy_attracts {mantissa : Nat} {exponent : Int} {accuracy : Accuracy} {y : ℚ}
    (sign : Sign) (hy : Holds (.ofMantissaAndAccuracy mantissa accuracy) y)
    (hplace : exponent ≤ max (mantissa.log2 + exponent - 52) (-1074)) :
    ∃ k, Magnitude.Attracts k (y * 2 ^ exponent) ∧
      Reading.ofUnpacked (roundWithAccuracy .binary64 sign mantissa exponent accuracy)
        = .finite (sign == .negative) (.nth k) := by
  generalize htarget : max (mantissa.log2 + exponent - 52) (-1074) = target at hplace
  let shift := (target - exponent).toNat
  let em := ExtendedMantissa.ofMantissaAndAccuracy mantissa accuracy >>> shift
  have hshift : exponent + shift = target := by simp only [shift]; omega
  have hfirst : shiftToTargetExponent .binary64 mantissa exponent accuracy = (em, target) := by
    rw [shiftToTargetExponent_eq, htarget]
    exact Prod.ext rfl hshift
  have hmantissa : em.mantissa = mantissa / 2 ^ shift := by
    rw [mantissa_shiftRight, mantissa_ofMantissaAndAccuracy]
  have hcanonical : (⟨em.mantissa, target⟩ : Magnitude).Canonical := by
    rw [hmantissa]
    exact canonical_of_target htarget.symm hplace
  have hem : Holds em (y / 2 ^ shift) := hy.shiftRight shift
  have hscale : y / 2 ^ shift * 2 ^ target = y * 2 ^ exponent := by
    rw [← hshift, zpow_add₀ two_ne_zero, zpow_natCast]
    field_simp
  have hrounded : em.mantissa ≤ em.roundedMantissa ∧ em.roundedMantissa ≤ em.mantissa + 1 := by
    rcases hem.rounded with ⟨h, -⟩ | ⟨h, -⟩ <;> omega
  refine ⟨_, hscale ▸ attracts_of_holds hem hcanonical, ?_⟩
  have hleast : -1074 ≤ target := hcanonical.least
  have hfits : em.mantissa < 2 ^ (53 : Nat) := hcanonical.fits
  have hfull : 2 ^ (52 : Nat) ≤ em.mantissa ∨ target = -1074 := hcanonical.full
  have hnth := nth_of_rounded (by omega) hleast (hfull.imp_left fun h => h.trans hrounded.1)
  have hfinal := hnth ▸ Magnitude.canonical_nth _
  rw [hnth]
  unfold roundWithAccuracy
  rw [hfirst]
  simp only
  split
  · rename_i hzero
    rw [hzero] at hfinal ⊢
    have hsmallest := hfinal.full.resolve_left (Nat.not_le.2 (Nat.two_pow_pos _))
    simp only at hsmallest
    rw [hsmallest]
    rfl
  · rfl

/-! ## Division -/

/-- The quotient has enough bits for its target exponent. -/
theorem divCore_place {m₁ m₂ : Nat} {e₁ e₂ : Int} (h₁ : 0 < m₁) (h₂ : 0 < m₂) :
    (divCore .binary64 m₁ e₁ m₂ e₂).2.1 ≤
      max ((divCore .binary64 m₁ e₁ m₂ e₂).1.log2 + (divCore .binary64 m₁ e₁ m₂ e₂).2.1 - 52)
        (-1074) := by
  have htarget : Format.binary64.targetExponent (totalExponent m₁ e₁ - totalExponent m₂ e₂)
      = max (m₁.log2 + e₁ - (m₂.log2 + e₂) - 53) (-1074) := by
    have hbits : Format.binary64.mantissaBits = 53 := rfl
    have hleast : Format.binary64.minExponent = -1074 := rfl
    rw [Format.targetExponent, totalExponent, totalExponent, hbits, hleast]
    congr 1
    omega
  unfold divCore
  simp only [htarget]
  generalize hplace : min (e₁ - e₂) (max (m₁.log2 + e₁ - (m₂.log2 + e₂) - 53) (-1074)) = place
  by_cases hleast : place ≤ -1074
  · omega
  have hlog : 52 ≤ (m₁ <<< (e₁ - e₂ - place).toNat / m₂).log2 := by
    have hm₁ : 2 ^ m₁.log2 ≤ m₁ := Nat.log2_self_le h₁.ne'
    have hm₂ : m₂ < 2 ^ (m₂.log2 + 1) := Nat.lt_log2_self
    have hquotient : 2 ^ (52 : Nat) ≤ m₁ <<< (e₁ - e₂ - place).toNat / m₂ := by
      rw [Nat.le_div_iff_mul_le h₂, Nat.shiftLeft_eq]
      calc 2 ^ (52 : Nat) * m₂ ≤ 2 ^ (52 : Nat) * 2 ^ (m₂.log2 + 1) := Nat.mul_le_mul_left _ hm₂.le
        _ = 2 ^ (52 + (m₂.log2 + 1)) := (Nat.pow_add ..).symm
        _ ≤ 2 ^ (m₁.log2 + (e₁ - e₂ - place).toNat) := Nat.pow_le_pow_right two_pos (by omega)
        _ = 2 ^ m₁.log2 * 2 ^ (e₁ - e₂ - place).toNat := Nat.pow_add ..
        _ ≤ m₁ * 2 ^ (e₁ - e₂ - place).toNat := Nat.mul_le_mul_right _ hm₁
    exact (Nat.le_log2 (by positivity)).2 hquotient
  omega

/-- What division starts from. -/
theorem unpacked_of_finite {u : UnpackedFloat} {size : Magnitude}
    (h : Reading.ofUnpacked u = .finite false size) :
    u = .zero .positive ∧ size = ⟨0, -1074⟩ ∨
      ∃ pos, u = .finite .positive size.mantissa size.exponent pos := by
  cases u with
  | zero sign =>
    cases sign <;> cases h
    exact .inl ⟨rfl, rfl⟩
  | finite sign mantissa exponent pos =>
    cases sign <;> cases h
    exact .inr ⟨pos, rfl⟩
  | _ => cases h

/-- **Division of finite doubles is exact but for the rounding.** -/
theorem div_attracts {u v : UnpackedFloat} {size other : Magnitude}
    (hu : Reading.ofUnpacked u = .finite false size)
    (hv : Reading.ofUnpacked v = .finite false other) (hpos : 0 < other.mantissa) :
    ∃ k, Magnitude.Attracts k (size.value / other.value) ∧
      Reading.ofUnpacked (div .binary64 u v) = .finite false (.nth k) := by
  obtain ⟨-, rfl⟩ | ⟨pos₂, rfl⟩ := unpacked_of_finite hv
  · exact absurd hpos (Nat.lt_irrefl 0)
  obtain ⟨rfl, rfl⟩ | ⟨pos₁, rfl⟩ := unpacked_of_finite hu
  · refine ⟨0, ?_, rfl⟩
    have hzero : Magnitude.value ⟨0, -1074⟩ = 0 := Magnitude.value_nth_zero
    rw [hzero, zero_div, ← hzero]
    exact Magnitude.attracts_value 0
  obtain ⟨m₁, e₁⟩ := size
  obtain ⟨m₂, e₂⟩ := other
  simp only at pos₁ pos₂
  generalize hplace : (divCore .binary64 m₁ e₁ m₂ e₂).2.1 = place
  let shift := (e₁ - e₂ - place).toNat
  have hshift : e₁ = e₂ + place + shift := by
    have : place ≤ e₁ - e₂ := hplace ▸ Int.min_le_left _ _
    simp only [shift]
    omega
  have hcore : divCore .binary64 m₁ e₁ m₂ e₂ = ((m₁ <<< shift) / m₂, place,
      accuracyOfFraction ((m₁ <<< shift) % m₂) m₂) := by
    subst hplace
    rfl
  have henough := @divCore_place _ _ e₁ e₂ pos₁ pos₂
  rw [hcore] at henough
  obtain ⟨k, hk, hread⟩ := roundWithAccuracy_attracts (.positive / .positive)
    (holds_fraction (m := (m₁ <<< shift) / m₂) (Nat.mod_lt _ pos₂)) henough
  refine ⟨k, ?_, ?_⟩
  · have hne : (m₂ : ℚ) ≠ 0 := by exact_mod_cast pos₂.ne'
    have hexact : ((m₁ <<< shift / m₂ : Nat) + (m₁ <<< shift % m₂ : Nat) / m₂ : ℚ)
        = m₁ * 2 ^ shift / m₂ := by
      rw [eq_div_iff hne, add_mul, div_mul_cancel₀ _ hne]
      have := Nat.div_add_mod' (m₁ <<< shift) m₂
      rw [Nat.shiftLeft_eq] at this ⊢
      exact_mod_cast this
    have hquotient : Magnitude.value ⟨m₁, e₁⟩ / Magnitude.value ⟨m₂, e₂⟩
        = m₁ * 2 ^ shift / m₂ * 2 ^ place := by
      simp only [Magnitude.value]
      rw [hshift, zpow_add₀ two_ne_zero, zpow_add₀ two_ne_zero, zpow_natCast]
      field_simp
    rw [hquotient, ← hexact]
    exact hk
  · rw [div, hcore]
    exact hread

/-! ## Packing -/

/-- What is finite and small enough survives packing. -/
theorem read_pack {u : UnpackedFloat} {negative : Bool} {k : Nat}
    (hu : Reading.ofUnpacked u = .finite negative (.nth k)) (hk : k < finiteCount) :
    read (.ofModel (.pack u)) = .finite negative (.nth k) := by
  obtain ⟨n, hn⟩ := exists_read hk negative
  have hunpacked : u = n.toModel.unpack := by
    rw [← Reading.ofUnpacked_inj, hu, ← hn, read_eq]
  rw [hunpacked, ofModel_pack_unpack, hn]

/-- What is too large becomes infinite. -/
theorem model_pack_of_large {sign : Sign} {mantissa : Nat} {exponent : Int} (pos : 0 < mantissa)
    (h : 972 ≤ exponent) :
    Float.Model.pack (.finite sign mantissa exponent pos) = .pack (.infinity sign) := by
  have hbias : (Format.binary64.exponentBias : Int) + Format.binary64.mantissaBitsWithoutImplicit
      = 1075 := by decide
  have hbits : (2 : Nat) ^ Format.binary64.exponentBits = 2048 := by decide
  have hpack : pack .binary64 (.finite sign mantissa exponent pos)
      = packedInfinity .binary64 sign := by
    unfold pack
    simp only
    rw [if_pos]
    rw [Int.add_assoc, hbias, hbits]
    omega
  simp only [Float.Model.pack, hpack]
  rfl

theorem read_pack_of_large {u : UnpackedFloat} {k : Nat}
    (hu : Reading.ofUnpacked u = .finite false (.nth k)) (hk : finiteCount ≤ k) :
    read (.ofModel (.pack u)) = .infinite false := by
  unfold finiteCount at hk
  have hexponent : 972 ≤ (Magnitude.nth k).exponent := by
    rw [Magnitude.nth, if_neg (by omega)]
    simp only
    omega
  obtain ⟨-, hzero⟩ | ⟨pos, rfl⟩ := unpacked_of_finite hu
  · rw [hzero] at hexponent
    simp at hexponent
  · rw [model_pack_of_large pos hexponent]
    decide +kernel

/-! ## Literals -/

theorem log2_shiftLeft {m : Nat} (hm : m ≠ 0) (bits : Nat) :
    (m <<< bits).log2 = m.log2 + bits := by
  have hshift : m <<< bits = m * 2 ^ bits := Nat.shiftLeft_eq ..
  have hpow : 0 < 2 ^ bits := Nat.two_pow_pos bits
  rw [hshift, Nat.log2_eq_iff (Nat.mul_ne_zero hm hpow.ne'), Nat.add_right_comm, Nat.pow_add,
    Nat.pow_add]
  exact ⟨Nat.mul_le_mul_right _ (Nat.log2_self_le hm),
    Nat.mul_lt_mul_of_pos_right Nat.lt_log2_self hpow⟩

/-- Whole numbers of at most 53 bits are doubles. -/
theorem ofNat_exact {m : Nat} (hm : m < 2 ^ (53 : Nat)) :
    ∃ k < finiteCount, Reading.ofUnpacked (ofNat .binary64 m) = .finite false (.nth k) ∧
      (Magnitude.nth k).value = m := by
  by_cases hzero : m = 0
  · subst hzero
    exact ⟨0, by decide, rfl, by simp⟩
  have hpositive : ofNat .binary64 m = UnpackedFloat.round .binary64 .positive m 0 := by
    have hcompare : compare (m : Int) 0 = .gt := Int.compare_eq_gt.2 (by omega)
    rw [ofNat, ofInt, UnpackedFloat.normalize, hcompare]
    rfl
  have hlog : m.log2 ≤ 52 := Nat.le_of_lt_succ ((Nat.log2_lt hzero).2 hm)
  have htarget : Format.binary64.targetExponent (totalExponent m 0) = m.log2 - 52 := by
    rw [targetExponent_eq]
    omega
  let full := m <<< (52 - m.log2)
  have hround : UnpackedFloat.round .binary64 .positive m 0
      = roundWithAccuracy .binary64 .positive full (m.log2 - 52) .exact := by
    have hshift : (0 - ((m.log2 : Int) - 52)).toNat = 52 - m.log2 := by omega
    have hplace : (0 : Int) - (52 - m.log2 : Nat) = m.log2 - 52 := by omega
    rw [UnpackedFloat.round, htarget, decreaseExponent]
    simp only [hshift, hplace, full]
  have hfull : full = m * 2 ^ (52 - m.log2) := Nat.shiftLeft_eq ..
  have hbits : full.log2 = 52 := by
    rw [log2_shiftLeft hzero]
    omega
  have hnonzero : full ≠ 0 := hfull ▸ Nat.mul_ne_zero hzero (Nat.two_pow_pos _).ne'
  obtain ⟨hlow, hhigh⟩ := (Nat.log2_eq_iff hnonzero).1 hbits
  have hcanonical : (⟨full, m.log2 - 52⟩ : Magnitude).Canonical :=
    ⟨hhigh, by simp only; omega, .inl hlow⟩
  have hvalue : (full : ℚ) * 2 ^ ((m.log2 : Int) - 52) = m := by
    have hscale : (m.log2 : Int) - 52 = -(52 - m.log2 : Nat) := by omega
    rw [hfull, hscale, zpow_neg, zpow_natCast]
    push_cast
    field_simp
  obtain ⟨k, hk, hread⟩ := @roundWithAccuracy_attracts _ (m.log2 - 52) _ _ .positive
    (holds_exact full) (by omega)
  have hcount : k = Magnitude.count ⟨full, m.log2 - 52⟩ := by
    refine hk.unique ?_
    have hself := Magnitude.attracts_value (Magnitude.count ⟨full, m.log2 - 52⟩)
    rwa [hcanonical.nth_count] at hself
  refine ⟨k, ?_, ?_, ?_⟩
  · rw [hcount]
    simp only [Magnitude.count, finiteCount]
    omega
  · rw [hpositive, hround]
    exact hread
  · rw [hcount, hcanonical.nth_count]
    exact hvalue

/-- The whole number that a reading stands for. -/
def Reading.whole? : Reading → Option Nat
  | .finite false size => size.whole?
  | _ => none

/-- The powers of ten that short literals are divided by are exact. -/
theorem read_powerOfTen {e : Nat} (he : e < 23) :
    (read Float.exactlyRepresentablePowersOfTen[e]).whole? = some (10 ^ e) := by
  have hall : ∀ e : Fin 23, (read Float.exactlyRepresentablePowersOfTen[e]).whole?
      = some (10 ^ e.val) := by
    decide +kernel
  exact hall ⟨e, he⟩

/-- A quotient of two whole numbers that are doubles. -/
theorem div_exact {a b : Float} {size : Magnitude} {x : ℚ} {power : Nat}
    (ha : read a = .finite false size) (hvalue : size.value = x)
    (hb : (read b).whole? = some power) (hpos : 0 < power) :
    ∃ u k, a / b = .ofModel (.pack u) ∧ Reading.ofUnpacked u = .finite false (.nth k) ∧
      Magnitude.Attracts k (x / power) := by
  cases hread : read b with
  | finite negative other =>
    rw [hread] at hb
    cases negative
    · have hpower : other.value = power := Magnitude.value_of_whole hb
      have hnonzero : other.mantissa ≠ 0 := by
        rw [ne_eq, ← Magnitude.value_eq_zero, hpower, Nat.cast_eq_zero]
        exact hpos.ne'
      obtain ⟨k, hk, hquotient⟩ := div_attracts (read_eq a ▸ ha) (read_eq b ▸ hread)
        (Nat.pos_of_ne_zero hnonzero)
      exact ⟨_, k, rfl, hquotient, hvalue ▸ hpower ▸ hk⟩
    · cases hb
  | _ => rw [hread] at hb; cases hb

/-- Decimals that are far below the least double are rounded to zero. -/
theorem attracts_zero_of_tiny {m e : Nat} (he : 2048 + m.log2 < e) :
    Magnitude.Attracts 0 (m / 10 ^ e) := by
  refine .of_lt (by simp) ?_
  have hten : (0 : ℚ) < 10 ^ e := by positivity
  have hboundary : Magnitude.boundary 0 = 2 ^ (-1075 : ℤ) := by
    have hfirst : Magnitude.nth 0 = ⟨0, -1074⟩ := rfl
    have hunit : (2 : ℚ) ^ (-1075 : ℤ) = 2 ^ (-1074 - 2 : ℤ) * 2 :=
      (zpow_add_one₀ two_ne_zero (-1074 - 2))
    rw [Magnitude.boundary_eq, hfirst, hunit]
    generalize (2 : ℚ) ^ (-1074 - 2 : ℤ) = quarter
    push_cast
    ring
  have hpow : (2 : ℚ) ^ e ≤ 10 ^ e := pow_le_pow_left₀ two_pos.le (by norm_num) e
  have hm : (m : ℚ) < 2 ^ (m.log2 + 1) := by exact_mod_cast Nat.lt_log2_self
  rw [hboundary, div_lt_iff₀ hten]
  calc (m : ℚ) < 2 ^ (m.log2 + 1) := hm
    _ = 2 ^ ((m.log2 + 1 : Nat) : ℤ) := (zpow_natCast _ _).symm
    _ ≤ 2 ^ (-1075 + e : ℤ) := zpow_le_zpow_right₀ one_le_two (by omega)
    _ = 2 ^ (-1075 : ℤ) * 2 ^ e := by rw [zpow_add₀ two_ne_zero, zpow_natCast]
    _ ≤ 2 ^ (-1075 : ℤ) * 10 ^ e := mul_le_mul_of_nonneg_left hpow (by positivity)

/-- The general case of reading a literal. -/
theorem unpackedScientific_attracts (m e : Nat) :
    ∃ k, Reading.ofUnpacked (ofScientific .binary64 m (.negOfNat e)) = .finite false (.nth k) ∧
      Magnitude.Attracts k (m / 10 ^ e) := by
  have hneg : Int.negOfNat e = -(e : Int) := Int.negOfNat_eq
  rw [hneg]
  unfold ofScientific
  split
  · rename_i hzero
    exact ⟨0, rfl, by simpa [hzero] using Magnitude.attracts_value 0⟩
  rename_i hzero
  have hsmall : ¬ (-(e : Int) > 2 ^ Format.binary64.exponentBits) := by
    have : (0 : Int) ≤ 2 ^ Format.binary64.exponentBits := by decide
    omega
  rw [if_neg hsmall]
  have hbits : (2 : Int) ^ Format.binary64.exponentBits = 2048 := by decide
  rw [hbits]
  split
  · exact ⟨0, rfl, attracts_zero_of_tiny (by omega)⟩
  split
  · have he : e = 0 := by omega
    subst he
    have hshift : m <<< 53 = m * 2 ^ (53 : Nat) := Nat.shiftLeft_eq ..
    have hlog : (m <<< 53).log2 = m.log2 + 53 := log2_shiftLeft hzero 53
    obtain ⟨k, hk, hread⟩ := @roundWithAccuracy_attracts _ (-53) _ _ .positive
      (holds_exact (m <<< 53)) (by omega)
    have hvalue : ((m <<< 53 : Nat) : ℚ) * 2 ^ (-53 : ℤ) = m / 10 ^ 0 := by
      rw [hshift]
      push_cast
      norm_num
      ring
    refine ⟨k, ?_, hvalue ▸ hk⟩
    show Reading.ofUnpacked (roundWithAccuracy .binary64 (.positive * .positive)
      (m <<< 53 * 1) (-53 + 0) .exact) = _
    rw [Nat.mul_one]
    exact hread
  · have htoNat : (- -(e : Int)).toNat = e := by omega
    have hwhole (n : Nat) : Magnitude.value ⟨n, 0⟩ = n := by simp [Magnitude.value]
    have hten : 0 < 10 ^ e := Nat.pow_pos (by decide)
    have hnum : Reading.ofUnpacked (.finite .positive m 0 (Nat.pos_of_ne_zero hzero))
        = .finite false ⟨m, 0⟩ := rfl
    have hden : Reading.ofUnpacked (.finite .positive (10 ^ e) 0 hten)
        = .finite false ⟨10 ^ e, 0⟩ := rfl
    obtain ⟨k, hk, hread⟩ := div_attracts hnum hden hten
    rw [hwhole, hwhole, Nat.cast_pow] at hk
    refine ⟨k, ?_, hk⟩
    simp only [htoNat]
    exact hread

/-- **A literal is rounded to the nearest double.** -/
theorem ofScientific_attracts (m e : Nat) :
    ∃ u k, Float.ofScientific m true e = .ofModel (.pack u) ∧
      Reading.ofUnpacked u = .finite false (.nth k) ∧ Magnitude.Attracts k (m / 10 ^ e) := by
  unfold Float.ofScientific
  by_cases hfast : m < 2 ^ (53 : Nat) ∧ e ≤ 22
  · rw [dif_pos hfast]
    obtain ⟨k, hk, hread, hvalue⟩ := ofNat_exact hfast.1
    have ha : read m.toUInt64.toFloat = .finite false (.nth k) := by
      have hm : m.toUInt64.toNat = m :=
        UInt64.toNat_ofNat_of_lt' (Nat.lt_trans hfast.1 (show 2 ^ (53 : Nat) < UInt64.size by decide))
      refine read_pack ?_ hk
      rw [← hread, ofUInt64, hm]
    have hquotient := div_exact ha hvalue (read_powerOfTen (Nat.lt_succ_of_le hfast.2))
      (Nat.pow_pos (show 0 < 10 by decide))
    rw [Nat.cast_pow] at hquotient
    exact hquotient
  · rw [dif_neg hfast]
    obtain ⟨k, hread, hk⟩ := unpackedScientific_attracts m e
    exact ⟨_, k, rfl, hread, hk⟩

theorem ofScientific_eq {m e : Nat} {n : Float} (h : RoundsTo false (m / 10 ^ e) n) :
    Float.ofScientific m true e = n := by
  obtain ⟨u, k, hu, hread, hk⟩ := ofScientific_attracts m e
  have hfinite : k < finiteCount := by
    by_contra hlarge
    obtain ⟨-, -, hbound, -⟩ := h
    have hover := hk.above (finiteCount - 1) (by unfold finiteCount at hlarge ⊢; omega)
    rw [← overflow_eq] at hover
    linarith
  have hresult := roundsTo_of_attracts (read_pack hread hfinite) (by positivity) hk
  rw [hu]
  exact hresult.unique h

/-- The value of a literal has no sign, and is finite or infinite. -/
theorem read_ofDigits (whole fraction : List Char) :
    (∃ size, read (ofDigits whole fraction) = .finite false size) ∨
      read (ofDigits whole fraction) = .infinite false := by
  obtain ⟨u, k, hu, hread, -⟩ := ofScientific_attracts (natOfDigits (whole ++ fraction))
    fraction.length
  rw [ofDigits, hu]
  rcases Nat.lt_or_ge k finiteCount with hk | hk
  · exact .inl ⟨_, read_pack hread hk⟩
  · exact .inr (read_pack_of_large hread hk)

end Lox.Number
