import Lox.Number.Text
import Lox.Proofs.Numbers.Magnitudes

/-!
# Doubles

A double is its reading: the sign and the magnitude of a finite one, the sign of an infinite one, or
that it is not a number. The finite doubles of one sign are the magnitudes below `2047 * 2 ^ 52`, in
the order of `Magnitude.nth`.

From this order comes what it means that a decimal is rounded to a double, which is said without it:
no finite double is nearer to the decimal, and if another one is as near then the mantissa is even.
-/

namespace Lox.Number

-- powers of natural numbers are those of the core library, under any imports
attribute [local instance (2000)] instPowNat

open Float.Model (UnpackedFloat Format)
open Float.Model.UnpackedFloat

/-! ## Readings -/

namespace Reading

/-- What an unpacked double stands for. -/
def ofUnpacked : UnpackedFloat → Reading
  | .notANumber => .nan
  | .infinity sign => .infinite (sign == .negative)
  | .zero sign => .finite (sign == .negative) ⟨0, -1074⟩
  | .finite sign mantissa exponent _ => .finite (sign == .negative) ⟨mantissa, exponent⟩

theorem ofUnpacked_inj {u v : UnpackedFloat} : ofUnpacked u = ofUnpacked v ↔ u = v := by
  have hsign (s t : Sign) : (s == Sign.negative) = (t == Sign.negative) ↔ s = t := by
    cases s <;> cases t <;> simp
  cases u <;> cases v <;> simp [ofUnpacked, hsign] <;> omega

end Reading

section Bits

variable (b : BitVec Format.binary64.numBits)

private theorem unpackMantissa_toNat : (unpackMantissa b).toNat = b.toNat % 2 ^ (52 : Nat) := by
  rw [unpackMantissa_def, BitVec.extractLsb'_toNat, Nat.shiftRight_zero]

private theorem unpackExponent_toNat :
    (unpackExponent b).toNat = b.toNat / 2 ^ (52 : Nat) % 2048 := by
  rw [unpackExponent_def, BitVec.extractLsb'_toNat, Nat.shiftRight_eq_div_pow]
  rfl

private theorem ofBitVec_unpackSign :
    (Sign.ofBitVec (unpackSign b) == .negative) = (b.toNat / 2 ^ (63 : Nat) % 2 == 1) := by
  have hbit : (unpackSign b).toNat = b.toNat / 2 ^ (63 : Nat) % 2 := by
    rw [unpackSign_def, BitVec.extractLsb'_toNat, Nat.shiftRight_eq_div_pow]
    rfl
  rw [← hbit]
  generalize unpackSign b = bit
  revert bit
  decide

/-- Bits are read as the logical model of floating-point numbers reads them. -/
theorem readBits_toNat : readBits b.toNat = .ofUnpacked (unpack .binary64 b) := by
  have hones : unpackExponent b = -1#_ ↔ (unpackExponent b).toNat = 2047 := by
    rw [← BitVec.toNat_inj]
    rfl
  have hzeros : unpackExponent b = 0#_ ↔ (unpackExponent b).toNat = 0 := by
    rw [← BitVec.toNat_inj]
    rfl
  have hblank : unpackMantissa b = 0#_ ↔ (unpackMantissa b).toNat = 0 := by
    rw [← BitVec.toNat_inj]
    rfl
  have hbias : (Format.binary64.exponentBias : Int) + Format.binary64.mantissaBitsWithoutImplicit
      = 1075 := by decide
  unfold readBits
  rw [← unpackMantissa_toNat, ← unpackExponent_toNat, ← ofBitVec_unpackSign]
  fun_cases unpack with
  | case1 mantissa exponent bit sign h hm =>
    rw [if_pos (hones.1 h), if_pos (hblank.1 hm)]
    rfl
  | case2 mantissa exponent h hm =>
    rw [if_pos (hones.1 h), if_neg (mt hblank.2 hm)]
    rfl
  | case3 mantissa exponent bit sign h h0 hm =>
    rw [if_neg (mt hones.2 h), if_pos (hzeros.1 h0), hblank.1 hm]
    rfl
  | case4 mantissa exponent place bit sign h h0 hm =>
    rw [if_neg (mt hones.2 h), if_pos (hzeros.1 h0)]
    have hplace : place + 1 = -1074 := by
      simp only [place, hbias, exponent, hzeros.1 h0]
      rfl
    simp only [Reading.ofUnpacked, hplace]
    rfl
  | case5 mantissa exponent place bit sign h h0 =>
    rw [if_neg (mt hones.2 h), if_neg (mt hzeros.2 h0)]
    have hfull : (1#1 ++ mantissa).toNat = 2 ^ (52 : Nat) + mantissa.toNat := by
      rw [BitVec.toNat_append, Nat.shiftLeft_eq, Nat.mul_comm]
      exact (Nat.two_pow_add_eq_or_of_lt mantissa.isLt 1).symm
    simp only [Reading.ofUnpacked, hfull, place, hbias]
    rfl

end Bits

theorem read_eq (n : Float) : read n = .ofUnpacked n.toModel.unpack :=
  readBits_toNat n.toBits.toBitVec

/-- A double is its reading. -/
theorem read_inj {a b : Float} : read a = read b ↔ a = b := by
  rw [read_eq, read_eq, Reading.ofUnpacked_inj, ← Float.toBits_inj, ← UInt64.toBitVec_inj]
  exact unpack_inj_of_valid a.toModel.valid b.toModel.valid

theorem isNaN_iff_read {n : Float} : n.isNaN ↔ read n = .nan := by
  have hnan : (Reading.nan) = .ofUnpacked .notANumber := rfl
  rw [read_eq, hnan, Reading.ofUnpacked_inj]
  exact isNaN_iff

/-- Packing keeps what was unpacked. -/
theorem ofModel_pack_unpack (n : Float) : Float.ofModel (.pack n.toModel.unpack) = n := by
  rw [← Float.toBits_inj, ← UInt64.toBitVec_inj]
  exact pack_unpack_of_valid n.toModel.valid

theorem unpack_of_isNaNBits {b : BitVec Format.binary64.numBits} (h : isNaNBits b = true) :
    unpack .binary64 b = .notANumber := by
  simp only [isNaNBits, decide_eq_true_eq] at h
  simp only [unpack, if_pos h.1, if_neg h.2]

section

variable (bits : UInt64)

private theorem readBits_eq : readBits bits.toNat = .ofUnpacked (unpack .binary64 bits.toBitVec) :=
  readBits_toNat bits.toBitVec

/-- Every pattern of bits is taken as it reads, though patterns of what is not a number are made
equal. -/
theorem read_ofBits : read (.ofBits bits) = readBits bits.toNat := by
  rw [read_eq, readBits_eq, Reading.ofUnpacked_inj]
  show unpack .binary64 (pack .binary64 (unpack .binary64 bits.toBitVec)) = _
  rw [pack_unpack]
  split
  · rename_i hnan
    rw [unpack_packedNaN, unpack_of_isNaNBits hnan]
  · rfl

variable {bits}

/-- Only patterns of what is not a number are changed. -/
theorem toBits_ofBits (h : readBits bits.toNat ≠ .nan) : (Float.ofBits bits).toBits = bits := by
  rw [← UInt64.toBitVec_inj]
  show pack .binary64 (unpack .binary64 bits.toBitVec) = _
  rw [pack_unpack, if_neg]
  intro hnan
  refine h ?_
  rw [readBits_eq, unpack_of_isNaNBits hnan]
  rfl

end

/-! ## Finite doubles -/

/-- How many magnitudes are finite. -/
def finiteCount : Nat := 2047 * 2 ^ (52 : Nat)

/-- The finite magnitudes are counted by the bits behind the sign. -/
theorem readBits_add {k : Nat} (hk : k < finiteCount) (negative : Bool) :
    readBits (negative.toNat * 2 ^ (63 : Nat) + k) = .finite negative (.nth k) := by
  unfold finiteCount at hk
  have hsign : ((negative.toNat * 2 ^ (63 : Nat) + k) / 2 ^ (63 : Nat) % 2 == 1) = negative := by
    have hbit : (negative.toNat * 2 ^ (63 : Nat) + k) / 2 ^ (63 : Nat) % 2 = negative.toNat := by
      cases negative <;> simp only [Bool.toNat_true, Bool.toNat_false] <;> omega
    rw [hbit]
    cases negative <;> rfl
  have hbiased : (negative.toNat * 2 ^ (63 : Nat) + k) / 2 ^ (52 : Nat) % 2048
      = k / 2 ^ (52 : Nat) := by omega
  have hfraction : (negative.toNat * 2 ^ (63 : Nat) + k) % 2 ^ (52 : Nat) = k % 2 ^ (52 : Nat) := by
    omega
  unfold readBits
  simp only [hsign, hbiased, hfraction]
  rw [if_neg (by omega), Magnitude.nth]
  by_cases hsmall : k < 2 ^ (52 : Nat)
  · rw [if_pos (by omega), if_pos hsmall, Nat.mod_eq_of_lt hsmall]
  · rw [if_neg (by omega), if_neg hsmall]

/-- A finite double is one of these. -/
theorem exists_of_read {n : Float} {negative : Bool} {size : Magnitude}
    (h : read n = .finite negative size) : ∃ k < finiteCount, size = .nth k := by
  let k := n.toBits.toNat % 2 ^ (63 : Nat)
  let sign := decide (2 ^ (63 : Nat) ≤ n.toBits.toNat)
  have hbits : n.toBits.toNat = sign.toNat * 2 ^ (63 : Nat) + k := by
    have := n.toBits.toNat_lt
    by_cases hsign : 2 ^ (63 : Nat) ≤ n.toBits.toNat
    · simp only [sign, decide_eq_true hsign, Bool.toNat_true, k]
      omega
    · simp only [sign, decide_eq_false hsign, Bool.toNat_false, k]
      omega
  by_cases hk : k < finiteCount
  · rw [read, hbits, readBits_add hk] at h
    exact ⟨k, hk, (Reading.finite.inj h).2.symm⟩
  · unfold finiteCount at hk
    have hbiased : n.toBits.toNat / 2 ^ (52 : Nat) % 2048 = 2047 := by omega
    rw [read, readBits, if_pos hbiased] at h
    split at h <;> cases h

theorem exists_read {k : Nat} (hk : k < finiteCount) (negative : Bool) :
    ∃ n, read n = .finite negative (.nth k) := by
  refine ⟨.ofBits (.ofNat (negative.toNat * 2 ^ (63 : Nat) + k)), ?_⟩
  rw [read_ofBits, UInt64.toNat_ofNat_of_lt', readBits_add hk]
  unfold finiteCount at hk
  show _ < 2 ^ (64 : Nat)
  cases negative <;> simp only [Bool.toNat_true, Bool.toNat_false] <;> omega

/-! ## Rounding to the nearest -/

/-- The number with the sign and the magnitude. -/
def withSign (negative : Bool) (x : ℚ) : ℚ := if negative then -x else x

/-- From here on numbers are rounded to infinity: half a unit above the largest finite double. -/
def overflow : ℚ := (2 ^ 54 - 1) * 2 ^ (970 : ℤ)

/-- Rounding the number with the sign and the magnitude `x` to the nearest double gives `n`: it has
the same sign, also if it is zero, no finite double is nearer, and if another one is as near then the
mantissa of `n` is even. -/
def RoundsTo (negative : Bool) (x : ℚ) (n : Float) : Prop :=
  ∃ size, read n = .finite negative size ∧ x < overflow ∧
    ∀ m sign other, read m = .finite sign other →
      |withSign negative size.value - withSign negative x| ≤
        |withSign sign other.value - withSign negative x| ∧
      (|withSign negative size.value - withSign negative x| =
          |withSign sign other.value - withSign negative x| →
        withSign sign other.value = withSign negative size.value ∨ size.mantissa % 2 = 0)

theorem overflow_eq : overflow = Magnitude.boundary (finiteCount - 1) := by
  have hlast : Magnitude.nth (finiteCount - 1) = ⟨2 ^ (53 : Nat) - 1, 971⟩ := by decide
  rw [Magnitude.boundary_eq, hlast, overflow, show (970 : ℤ) = 971 - 2 + 1 from rfl,
    zpow_add_one₀ two_ne_zero]
  generalize (2 : ℚ) ^ (971 - 2 : ℤ) = quarter
  push_cast
  ring

@[simp] theorem withSign_zero (negative : Bool) : withSign negative 0 = 0 := by
  cases negative <;> simp [withSign]

theorem withSign_inj {negative : Bool} {x y : ℚ} :
    withSign negative x = withSign negative y ↔ x = y := by
  cases negative <;> simp [withSign]

private theorem abs_withSign_sub {negative : Bool} {x y : ℚ} :
    |withSign negative x - withSign negative y| = |x - y| := by
  cases negative
  · rfl
  · show |-x - -y| = |x - y|
    rw [← abs_neg]
    ring_nf

/-- Numbers of the other sign are no nearer. -/
private theorem abs_sub_le_withSign {negative sign : Bool} {x y : ℚ} (hx : 0 ≤ x) (hy : 0 ≤ y) :
    |y - x| ≤ |withSign sign y - withSign negative x| ∧
    (|y - x| = |withSign sign y - withSign negative x| → sign = negative ∨ x = 0 ∨ y = 0) := by
  by_cases hsign : sign = negative
  · rw [hsign, abs_withSign_sub]
    exact ⟨le_refl _, fun _ => .inl rfl⟩
  · have hsum : |withSign sign y - withSign negative x| = y + x := by
      obtain rfl : sign = !negative := Bool.eq_not_of_ne hsign
      cases negative
      · show |-y - x| = y + x
        rw [abs_of_nonpos (by linarith)]
        ring
      · show |y - -x| = y + x
        rw [sub_neg_eq_add, abs_of_nonneg (by linarith)]
    rw [hsum]
    rcases abs_cases (y - x) with ⟨h, _⟩ | ⟨h, _⟩ <;> rw [h]
    · exact ⟨by linarith, fun heq => .inr (.inl (by linarith))⟩
    · exact ⟨by linarith, fun heq => .inr (.inr (by linarith))⟩

/-- A decimal that the magnitude of a double attracts is rounded to the double. -/
theorem roundsTo_of_attracts {n : Float} {negative : Bool} {k : Nat} {x : ℚ}
    (hn : read n = .finite negative (.nth k)) (hx : 0 ≤ x) (h : Magnitude.Attracts k x) :
    RoundsTo negative x n := by
  obtain ⟨i, hi, hki⟩ := exists_of_read hn
  obtain rfl := Magnitude.nth_inj.1 hki
  refine ⟨_, hn, ?_, fun m sign other hm => ?_⟩
  · rw [overflow_eq]
    rcases Nat.lt_or_ge k (finiteCount - 1) with hlt | hge
    · exact h.below.trans_lt (Magnitude.boundary_strictMono hlt)
    · obtain rfl : k = finiteCount - 1 := by omega
      refine lt_of_le_of_ne h.below fun heq => ?_
      have := h.even _ heq
      revert this
      decide
  · obtain ⟨j, -, rfl⟩ := exists_of_read hm
    rw [abs_withSign_sub]
    obtain ⟨hnearest, htie⟩ := h.nearest j
    obtain ⟨hside, hsides⟩ :=
      @abs_sub_le_withSign negative sign _ _ hx (Magnitude.value_nonneg (.nth j))
    refine ⟨hnearest.trans hside, fun hsame => ?_⟩
    rw [Magnitude.nth_mantissa_mod_two]
    refine (htie (le_antisymm hnearest (hside.trans_eq hsame.symm))).imp_left ?_
    rintro rfl
    rcases hsides (by rw [hsame]) with rfl | hzero | hzero
    · rfl
    · have hleast : Magnitude.Attracts 0 x := by
        simpa [hzero] using Magnitude.attracts_value 0
      rw [h.unique hleast, Magnitude.value_nth_zero, withSign_zero, withSign_zero]
    · rw [hzero, withSign_zero, withSign_zero]

/-- **Rounding gives one double.** -/
theorem RoundsTo.unique {n m : Float} {negative : Bool} {x : ℚ} (hn : RoundsTo negative x n)
    (hm : RoundsTo negative x m) : n = m := by
  obtain ⟨size, hread, -, hnearest⟩ := hn
  obtain ⟨size', hread', -, hnearest'⟩ := hm
  obtain ⟨i, hi, rfl⟩ := exists_of_read hread
  obtain ⟨j, hj, rfl⟩ := exists_of_read hread'
  have hbelow (k : Nat) (hk : k ≤ max i j) : ∃ m, read m = .finite negative (.nth k) :=
    exists_read (by omega) negative
  have hcases := Magnitude.eq_or_odd_of_nearest (j := i) (k := j) (x := x)
    (fun k hk => by
      obtain ⟨m, hm⟩ := hbelow k hk
      simpa only [abs_withSign_sub] using (hnearest m _ _ hm).1)
    (fun k hk => by
      obtain ⟨m, hm⟩ := hbelow k hk
      simpa only [abs_withSign_sub] using (hnearest' m _ _ hm).1)
  suffices hsame : i = j by rw [← read_inj, hread, hread', hsame]
  refine hcases.elim id fun hodd => ?_
  have htie := le_antisymm (hnearest m _ _ hread').1 (hnearest' n _ _ hread).1
  have heven := (hnearest m _ _ hread').2 htie
  have heven' := (hnearest' n _ _ hread).2 htie.symm
  rw [withSign_inj, Magnitude.value_nth_inj, Magnitude.nth_mantissa_mod_two] at heven heven'
  omega

end Lox.Number
