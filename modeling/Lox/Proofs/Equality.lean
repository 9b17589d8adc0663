import Lox.Operator
import Lox.Proofs.Numbers.Texts

/-!
# Equal values cannot be told apart

On all values but numbers, equality of the language is sameness: of contents, or of the thing in the
heap. On numbers it is sameness too, except that all patterns of bits for what is not a number are
equal. These cannot be told apart either. Arithmetic with one of them gives another one, all
comparisons with one of them fail, and they are printed alike. So each operator, given equal values,
fails in the same way or gives equal values.
-/

namespace Lox

open Float.Model (UnpackedFloat)
open Float.Model.UnpackedFloat

namespace Number

variable {x y : Float}

/-! ## What is not a number -/

theorem unpack_of_isNaN (h : x.isNaN = true) : x.toModel.unpack = .notANumber := isNaN_iff.1 h

/-- An operation that keeps what is not a number in its operands keeps it in its result. -/
theorem isNaN_of_operation {f : UnpackedFloat → UnpackedFloat → UnpackedFloat}
    (hleft : ∀ v, f .notANumber v = .notANumber) (hright : ∀ u, f u .notANumber = .notANumber)
    (h : x.isNaN = true ∨ y.isNaN = true) :
    (Float.ofModel (.pack (f x.toModel.unpack y.toModel.unpack))).isNaN = true := by
  have hresult : f x.toModel.unpack y.toModel.unpack = .notANumber := by
    rcases h with h | h
    · rw [unpack_of_isNaN h, hleft]
    · rw [unpack_of_isNaN h, hright]
  rw [hresult]
  decide +kernel

theorem isNaN_neg (h : x.isNaN = true) : (-x).isNaN = true := by
  have hneg : -x = .ofModel (.pack x.toModel.unpack.neg) := rfl
  rw [hneg, unpack_of_isNaN h]
  decide +kernel

theorem isNaN_add (h : x.isNaN = true ∨ y.isNaN = true) : (x + y).isNaN = true :=
  isNaN_of_operation (f := add .binary64) (fun _ => rfl) (fun u => by cases u <;> rfl) h

theorem isNaN_sub (h : x.isNaN = true ∨ y.isNaN = true) : (x - y).isNaN = true :=
  isNaN_of_operation (f := sub .binary64) (fun _ => rfl) (fun u => by cases u <;> rfl) h

theorem isNaN_mul (h : x.isNaN = true ∨ y.isNaN = true) : (x * y).isNaN = true :=
  isNaN_of_operation (f := mul .binary64) (fun _ => rfl) (fun u => by cases u <;> rfl) h

theorem isNaN_div (h : x.isNaN = true ∨ y.isNaN = true) : (x / y).isNaN = true :=
  isNaN_of_operation (f := div .binary64) (fun _ => rfl) (fun u => by cases u <;> rfl) h

/-- What is not a number has no place in the order. -/
theorem compare_of_isNaN (h : x.isNaN = true ∨ y.isNaN = true) :
    x.toModel.unpack.compare y.toModel.unpack = none := by
  rcases h with h | h
  · rw [unpack_of_isNaN h]
    rfl
  · rw [unpack_of_isNaN h]
    cases x.toModel.unpack <;> rfl

theorem not_lt_of_isNaN (h : x.isNaN = true ∨ y.isNaN = true) : ¬ x < y := by
  intro hlt
  have hcompare : x.toModel.unpack.lt y.toModel.unpack = true := of_decide_eq_true hlt
  rw [UnpackedFloat.lt, compare_of_isNaN h] at hcompare
  cases hcompare

theorem not_le_of_isNaN (h : x.isNaN = true ∨ y.isNaN = true) : ¬ x ≤ y := by
  intro hle
  have hcompare : x.toModel.unpack.le y.toModel.unpack = true := of_decide_eq_true hle
  rw [UnpackedFloat.le, compare_of_isNaN h] at hcompare
  cases hcompare

theorem same_of_isNaN (hx : x.isNaN = true) (hy : y.isNaN = true) : same x y = true :=
  same_iff.2 ((isNaN_iff_read.1 hx).trans (isNaN_iff_read.1 hy).symm)

/-- Numbers are the same value if they have the same bits, or if both are not a number. -/
theorem same_cases (h : same x y = true) : x = y ∨ x.isNaN = true ∧ y.isNaN = true := by
  rw [same] at h
  split at h
  · exact .inr (Bool.and_eq_true_iff.1 h)
  · exact .inl (Float.toBits_inj.1 (eq_of_beq h))

/-- Which patterns of bits are the same value. -/
theorem same_ofBits (bits bits' : UInt64) : same (.ofBits bits) (.ofBits bits') = true ↔
    bits = bits' ∨ readBits bits.toNat = .nan ∧ readBits bits'.toNat = .nan := by
  rw [same_iff]
  by_cases hnan : readBits bits.toNat = .nan
  · rw [read_ofBits, read_ofBits, hnan]
    refine ⟨fun h => .inr ⟨rfl, h.symm⟩, ?_⟩
    rintro (rfl | ⟨-, h⟩)
    · exact hnan.symm
    · exact h.symm
  · refine ⟨fun h => .inl ?_, ?_⟩
    · have hnan' : readBits bits'.toNat ≠ .nan := by rwa [← read_ofBits, ← h, read_ofBits]
      rw [← toBits_ofBits hnan, ← toBits_ofBits hnan', read_inj.1 h]
    · rintro (rfl | ⟨h, -⟩)
      · rfl
      · exact absurd h hnan

end Number

namespace Value

variable {a b c : Value}

/-! ## Equality -/

/-- Equal values are the same, unless they are numbers that are not a number. -/
theorem same_cases (h : a.same b = true) :
    a = b ∨ ∃ x y, a = .number x ∧ b = .number y ∧ x.isNaN = true ∧ y.isNaN = true := by
  unfold same at h
  split at h
  · rename_i x y
    rcases Number.same_cases h with rfl | ⟨hx, hy⟩
    · exact .inl rfl
    · exact .inr ⟨x, y, rfl, rfl, hx, hy⟩
  · exact .inl (of_decide_eq_true h)

theorem same_refl (a : Value) : a.same a = true := by
  unfold same
  split
  · rename_i x y h
    cases h
    exact Number.same_iff.2 rfl
  · exact decide_eq_true rfl

theorem same_symm (h : a.same b = true) : b.same a = true := by
  rcases same_cases h with rfl | ⟨x, y, rfl, rfl, hx, hy⟩
  · exact same_refl a
  · exact Number.same_of_isNaN hy hx

theorem same_trans (h : a.same b = true) (h' : b.same c = true) : a.same c = true := by
  rcases same_cases h with rfl | ⟨x, y, rfl, rfl, hx, -⟩
  · exact h'
  rcases same_cases h' with rfl | ⟨y', z, hb, rfl, -, hz⟩
  · exact h
  · exact Number.same_of_isNaN hx hz

/-- Equality itself does not tell equal values apart. -/
theorem same_congr (h : a.same b = true) (c : Value) : a.same c = b.same c :=
  Bool.eq_iff_iff.2 ⟨fun hc => same_trans (same_symm h) hc, fun hc => same_trans h hc⟩

theorem same_comm (a b : Value) : a.same b = b.same a :=
  Bool.eq_iff_iff.2 ⟨same_symm, same_symm⟩

theorem isTruthy_congr (h : a.same b = true) : a.isTruthy = b.isTruthy := by
  rcases same_cases h with rfl | ⟨x, y, rfl, rfl, -, -⟩ <;> rfl

theorem text_congr (h : a.same b = true) (heap : Heap) : a.text heap = b.text heap := by
  rcases same_cases h with rfl | ⟨x, y, rfl, rfl, hx, hy⟩
  · rfl
  · show Number.text x = Number.text y
    rw [Number.text, Number.text, Number.isNaN_iff_read.1 hx, Number.isNaN_iff_read.1 hy]

end Value

namespace Operator

/-! ## Operators -/

/-- The same failure, or values that are equal. -/
inductive Alike : Except Failure Value → Except Failure Value → Prop where
  | failed (f : Failure) : Alike (.error f) (.error f)
  | equal {a b : Value} (h : a.same b = true) : Alike (.ok a) (.ok b)

theorem Alike.refl : ∀ r, Alike r r
  | .error f => .failed f
  | .ok v => .equal v.same_refl

variable {a b : Value} {x y x' y' : Float}

theorem unary_alike (h : a.same b = true) (operator : Token) :
    Alike (unary operator a) (unary operator b) := by
  rcases Value.same_cases h with rfl | ⟨x, y, rfl, rfl, hx, hy⟩
  · exact .refl _
  unfold unary
  split
  · exact .equal (Number.same_of_isNaN (Number.isNaN_neg hx) (Number.isNaN_neg hy))
  · exact .refl _
  · exact .refl _

/-- Arithmetic and order treat all that is not a number alike. -/
theorem numeric_alike (operator : Token) (h : x.isNaN = true ∨ y.isNaN = true)
    (h' : x'.isNaN = true ∨ y'.isNaN = true) :
    Alike (numeric operator x y) (numeric operator x' y') := by
  have hswap := h.symm
  have hswap' := h'.symm
  unfold numeric
  split
  · exact .equal (Number.same_of_isNaN (Number.isNaN_sub h) (Number.isNaN_sub h'))
  · exact .equal (Number.same_of_isNaN (Number.isNaN_mul h) (Number.isNaN_mul h'))
  · exact .equal (Number.same_of_isNaN (Number.isNaN_div h) (Number.isNaN_div h'))
  · rw [decide_eq_false (Number.not_lt_of_isNaN hswap), decide_eq_false (Number.not_lt_of_isNaN hswap')]
    exact .refl _
  · rw [decide_eq_false (Number.not_le_of_isNaN hswap), decide_eq_false (Number.not_le_of_isNaN hswap')]
    exact .refl _
  · rw [decide_eq_false (Number.not_lt_of_isNaN h), decide_eq_false (Number.not_lt_of_isNaN h')]
    exact .refl _
  · rw [decide_eq_false (Number.not_le_of_isNaN h), decide_eq_false (Number.not_le_of_isNaN h')]
    exact .refl _
  · exact .refl _

theorem plus_alike_left (h : a.same b = true) (heap : Heap) (operator : Token) (c : Value) :
    Alike (plus heap operator a c) (plus heap operator b c) := by
  have htext := Value.text_congr h heap
  rcases Value.same_cases h with rfl | ⟨x, y, rfl, rfl, hx, hy⟩
  · exact .refl _
  cases c with
  | number z =>
    exact .equal (Number.same_of_isNaN (Number.isNaN_add (.inl hx)) (Number.isNaN_add (.inl hy)))
  | string s =>
    simp only [plus, htext]
    exact .refl _
  | _ => exact .refl _

theorem plus_alike_right (h : a.same b = true) (heap : Heap) (operator : Token) (c : Value) :
    Alike (plus heap operator c a) (plus heap operator c b) := by
  have htext := Value.text_congr h heap
  rcases Value.same_cases h with rfl | ⟨x, y, rfl, rfl, hx, hy⟩
  · exact .refl _
  cases c with
  | number z =>
    exact .equal (Number.same_of_isNaN (Number.isNaN_add (.inr hx)) (Number.isNaN_add (.inr hy)))
  | string s =>
    simp only [plus, htext]
    exact .refl _
  | _ => exact .refl _

theorem binary_alike_left (h : a.same b = true) (heap : Heap) (operator : Token) (c : Value) :
    Alike (binary heap operator a c) (binary heap operator b c) := by
  unfold binary
  split
  · rw [Value.same_congr h]
    exact .refl _
  · rw [Value.same_congr h]
    exact .refl _
  · exact plus_alike_left h heap operator c
  · rcases Value.same_cases h with rfl | ⟨x, y, rfl, rfl, hx, hy⟩
    · exact .refl _
    cases c with
    | number z => exact numeric_alike operator (.inl hx) (.inl hy)
    | _ => exact .refl _

theorem binary_alike_right (h : a.same b = true) (heap : Heap) (operator : Token) (c : Value) :
    Alike (binary heap operator c a) (binary heap operator c b) := by
  unfold binary
  split
  · rw [Value.same_comm c, Value.same_comm c, Value.same_congr h]
    exact .refl _
  · rw [Value.same_comm c, Value.same_comm c, Value.same_congr h]
    exact .refl _
  · exact plus_alike_right h heap operator c
  · rcases Value.same_cases h with rfl | ⟨x, y, rfl, rfl, hx, hy⟩
    · exact .refl _
    cases c with
    | number z => exact numeric_alike operator (.inr hx) (.inr hy)
    | _ => exact .refl _

theorem settles_congr (h : a.same b = true) (operator : Token) :
    settles operator a = settles operator b := by
  rw [settles, settles, Value.isTruthy_congr h]

end Operator

open Operator in
/-- **Equality is a congruence.** It is reflexive, symmetric and transitive, and on numbers it makes
equal what has the same bits, and all patterns that are not a number. Whatever is in the heap, equal
values are as good as each other in a condition, are printed alike, settle the same logical operators,
and each unary operator, and each binary operator with a third value on either side, fails for both in
the same way or gives values that are equal again. -/
theorem Value.same_congruence :
    (∀ a : Value, a.same a = true) ∧
    (∀ a b : Value, a.same b = true → b.same a = true) ∧
    (∀ a b c : Value, a.same b = true → b.same c = true → a.same c = true) ∧
    (∀ bits bits' : UInt64,
      (Value.number (.ofBits bits)).same (.number (.ofBits bits')) = true ↔
        bits = bits' ∨ Number.readBits bits.toNat = .nan ∧ Number.readBits bits'.toNat = .nan) ∧
    ∀ (heap : Heap) (a b : Value), a.same b = true →
      a.isTruthy = b.isTruthy ∧
      a.text heap = b.text heap ∧
      (∀ operator, settles operator a = settles operator b) ∧
      (∀ operator, Alike (unary operator a) (unary operator b)) ∧
      ∀ operator (c : Value),
        Alike (binary heap operator a c) (binary heap operator b c) ∧
        Alike (binary heap operator c a) (binary heap operator c b) :=
  ⟨same_refl, fun _ _ => same_symm, fun _ _ _ => same_trans, Number.same_ofBits,
    fun heap _ _ h => ⟨isTruthy_congr h, text_congr h heap, settles_congr h, unary_alike h,
      fun operator c => ⟨binary_alike_left h heap operator c,
        binary_alike_right h heap operator c⟩⟩⟩

/-- Two patterns of bits that are not a number, and the quotients of one by them. -/
theorem Value.same_congruence_nan :
    (Value.number (.ofBits 0x7FF8000000000000)).same (.number (.ofBits 0xFFF0000000000001)) = true ∧
    Operator.Alike
      (Operator.binary .empty ⟨.symbol .slash, "/", 1⟩ (.number 1)
        (.number (.ofBits 0x7FF8000000000000)))
      (Operator.binary .empty ⟨.symbol .slash, "/", 1⟩ (.number 1)
        (.number (.ofBits 0xFFF0000000000001))) := by
  obtain ⟨-, -, -, hbits, hcongr⟩ := same_congruence
  have hsame := (hbits 0x7FF8000000000000 0xFFF0000000000001).2 (.inr ⟨by decide, by decide⟩)
  exact ⟨hsame, ((hcongr .empty _ _ hsame).2.2.2.2 _ _).2⟩

end Lox
