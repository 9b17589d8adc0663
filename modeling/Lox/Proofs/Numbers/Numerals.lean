import Lox.Number.Text
import Lox.Proofs.Numbers.Shortest

/-!
# Numerals

A numeral has digits, maybe a fraction, and maybe a power of ten behind an `E`. This file says what
decimal a text stands for if it is read so, by a function that knows nothing of how numbers are
printed, and that each of the notations in which numbers are printed is a numeral whose decimal has
the value that is meant.
-/

namespace Lox.Number

-- powers of natural numbers are those of the core library, under any imports
attribute [local instance (2000)] instPowNat

/-! ## Reading -/

/-- Digits, at least one. -/
def readNatural (cs : List Char) : Option Nat :=
  if cs ≠ [] ∧ cs.all Char.isDigit then some (natOfDigits cs) else none

/-- Digits, maybe with a minus sign. -/
def readInteger : List Char → Option Int
  | '-' :: cs => (readNatural cs).map fun n => -(n : Int)
  | cs => (readNatural cs).map fun n => (n : Int)

/-- The power of ten behind the digits, the last `places` of which are behind the point. -/
def readPower (digits : List Char) (places : Nat) : List Char → Option Decimal
  | [] => some ⟨natOfDigits digits, -places⟩
  | 'E' :: cs => (readInteger cs).map fun power => ⟨natOfDigits digits, power - places⟩
  | _ => none

/-- Digits, maybe a point and more digits, and maybe a power of ten. -/
def readDecimal (cs : List Char) : Option Decimal :=
  let whole := cs.takeWhile Char.isDigit
  if whole = [] then none
  else match cs.dropWhile Char.isDigit with
    | '.' :: rest =>
      let fraction := rest.takeWhile Char.isDigit
      if fraction = [] then none
      else readPower (whole ++ fraction) fraction.length (rest.dropWhile Char.isDigit)
    | rest => readPower whole 0 rest

/-- The exact decimal that a text stands for, and whether a minus sign is in front of it. -/
def readText (text : String) : Option (Bool × Decimal) :=
  match text.toList with
  | '-' :: cs => (readDecimal cs).map fun d => (true, d)
  | cs => (readDecimal cs).map fun d => (false, d)

/-! ## Digits -/

section

variable {cs rest : List Char}

theorem natOfDigits_eq (cs : List Char) : natOfDigits cs = Nat.ofDigitChars 10 cs 0 := by
  rw [natOfDigits, Nat.ofDigitChars_eq_foldl]
  congr 1
  funext n c
  rw [Nat.mul_comm]

@[simp] theorem natOfDigits_toDigits (n : Nat) : natOfDigits (Nat.toDigits 10 n) = n := by
  rw [natOfDigits_eq, Nat.ofDigitChars_ten_toDigits]

theorem natOfDigits_append_zeros (cs : List Char) (n : Nat) :
    natOfDigits (cs ++ List.replicate n '0') = natOfDigits cs * 10 ^ n := by
  rw [natOfDigits_eq, natOfDigits_eq, Nat.ofDigitChars_append, Nat.ofDigitChars_replicate_zero,
    Nat.mul_comm]

theorem natOfDigits_zeros_append (cs : List Char) (n : Nat) :
    natOfDigits (List.replicate n '0' ++ cs) = natOfDigits cs := by
  rw [natOfDigits_eq, natOfDigits_eq, Nat.ofDigitChars_append, Nat.ofDigitChars_replicate_zero,
    Nat.mul_zero]

theorem all_digits_toDigits (n : Nat) : ∀ c ∈ Nat.toDigits 10 n, c.isDigit = true :=
  fun _ hc => Nat.isDigit_of_mem_toDigits (by decide) (by decide) hc

theorem readNatural_of_digits (hne : cs ≠ []) (h : ∀ c ∈ cs, c.isDigit = true) :
    readNatural cs = some (natOfDigits cs) := by
  rw [readNatural, if_pos ⟨hne, List.all_eq_true.2 h⟩]

theorem readInteger_of_digits (hne : cs ≠ []) (h : ∀ c ∈ cs, c.isDigit = true) :
    readInteger cs = some (natOfDigits cs : Int) := by
  unfold readInteger
  split
  · exact absurd (h '-' (List.mem_cons_self ..)) (by decide)
  · rw [readNatural_of_digits hne h]
    rfl

/-- Integers are printed as digits, maybe with a minus sign. -/
theorem toList_toString_int (power : Int) : ∃ n : Nat,
    (power = n ∧ (toString power).toList = Nat.toDigits 10 n) ∨
      (power = -n ∧ (toString power).toList = '-' :: Nat.toDigits 10 n) := by
  have hdigits (n : Nat) : (toString n).toList = Nat.toDigits 10 n := by
    rw [Nat.toString_eq_ofList_toDigits, String.toList_ofList]
  cases power with
  | ofNat n => exact ⟨n, .inl ⟨rfl, hdigits n⟩⟩
  | negSucc n =>
    have htext : toString (Int.negSucc n) = "-" ++ toString (n + 1) := rfl
    refine ⟨n + 1, .inr ⟨rfl, ?_⟩⟩
    rw [htext, String.toList_append, hdigits]
    rfl

/-- Integers are read as they are printed. -/
theorem readInteger_toString (power : Int) :
    readInteger (toString power).toList = some power := by
  obtain ⟨n, ⟨hpower, htext⟩ | ⟨hpower, htext⟩⟩ := toList_toString_int power
  · rw [htext, readInteger_of_digits Nat.toDigits_ne_nil (all_digits_toDigits n),
      natOfDigits_toDigits, hpower]
  · rw [htext, readInteger, readNatural_of_digits Nat.toDigits_ne_nil (all_digits_toDigits n),
      natOfDigits_toDigits, hpower]
    rfl

/-- Digits end where another character follows. -/
theorem span_digits (hcs : ∀ c ∈ cs, c.isDigit = true)
    (hrest : ∀ c ∈ rest.head?, c.isDigit = false) :
    (cs ++ rest).takeWhile Char.isDigit = cs ∧ (cs ++ rest).dropWhile Char.isDigit = rest := by
  rw [List.takeWhile_append_of_pos hcs, List.dropWhile_append_of_pos hcs]
  cases rest with
  | nil => simp
  | cons c rest => simp [hrest c rfl]

end

/-! ## Numerals -/

/-- The parts of a numeral. -/
structure Numeral where
  whole : List Char
  fraction : List Char
  power : Option Int
  whole_ne_nil : whole ≠ []
  whole_digits : ∀ c ∈ whole, c.isDigit = true
  fraction_digits : ∀ c ∈ fraction, c.isDigit = true

namespace Numeral

variable (m : Numeral)

def fractionPart : List Char := if m.fraction = [] then [] else '.' :: m.fraction

def powerPart : List Char := match m.power with
  | none => []
  | some power => 'E' :: (toString power).toList

def text : String := String.ofList (m.whole ++ (m.fractionPart ++ m.powerPart))

def decimal : Decimal := ⟨natOfDigits (m.whole ++ m.fraction), m.power.getD 0 - m.fraction.length⟩

theorem readPower_powerPart (digits : List Char) (places : Nat) :
    readPower digits places m.powerPart = some ⟨natOfDigits digits, m.power.getD 0 - places⟩ := by
  unfold powerPart
  cases m.power with
  | none => simp [readPower]
  | some power =>
    simp only [readPower, readInteger_toString]
    rfl

theorem head_powerPart : ∀ c ∈ m.powerPart.head?, c.isDigit = false := by
  unfold powerPart
  cases m.power with
  | none => simp
  | some power => simp

theorem readDecimal_chars :
    readDecimal (m.whole ++ (m.fractionPart ++ m.powerPart)) = some m.decimal := by
  have hwhole : ∀ c ∈ (m.fractionPart ++ m.powerPart).head?, c.isDigit = false := by
    unfold fractionPart
    split
    · exact m.head_powerPart
    · simp
  obtain ⟨htake, hdrop⟩ := span_digits m.whole_digits hwhole
  unfold readDecimal
  rw [htake, hdrop, if_neg m.whole_ne_nil, fractionPart]
  by_cases hfraction : m.fraction = []
  · have hpoint : ∀ cs, m.powerPart ≠ '.' :: cs := by
      unfold powerPart
      cases m.power <;> simp
    have hread := m.readPower_powerPart m.whole 0
    rw [if_pos hfraction, List.nil_append]
    split
    · rename_i rest hrest
      exact absurd hrest (hpoint rest)
    · rw [hread, decimal, hfraction, List.append_nil]
      rfl
  · obtain ⟨htake, hdrop⟩ := span_digits m.fraction_digits m.head_powerPart
    rw [if_neg hfraction, List.cons_append]
    simp only [htake, hdrop, if_neg hfraction]
    exact m.readPower_powerPart _ _

/-- A numeral is read as its decimal, with the sign in front of it. -/
theorem readText_signed (negative : Bool) :
    readText (signed negative m.text) = some (negative, m.decimal) := by
  have hchars : m.text.toList = m.whole ++ (m.fractionPart ++ m.powerPart) := String.toList_ofList
  cases negative with
  | false =>
    show readText m.text = _
    unfold readText
    rw [hchars]
    split
    · rename_i cs hminus
      obtain ⟨c, whole, hc⟩ := List.exists_cons_of_ne_nil m.whole_ne_nil
      rw [hc, List.cons_append] at hminus
      obtain ⟨rfl, -⟩ := List.cons.inj hminus
      exact absurd (m.whole_digits '-' (hc ▸ List.mem_cons_self ..)) (by decide)
    · rw [m.readDecimal_chars]
      rfl
  | true =>
    have hminus : (signed true m.text).toList
        = '-' :: (m.whole ++ (m.fractionPart ++ m.powerPart)) := by
      rw [signed, if_pos rfl, String.toList_append, hchars]
      rfl
    unfold readText
    rw [hminus]
    simp only [m.readDecimal_chars]
    rfl

end Numeral

/-! ## Notations -/

/-- Whole numbers are printed as numerals. -/
theorem exists_whole (n : Nat) :
    ∃ m : Numeral, toString n = m.text ∧ m.power = none ∧ m.decimal.value = n := by
  refine ⟨⟨Nat.toDigits 10 n, [], none, Nat.toDigits_ne_nil, all_digits_toDigits n, by simp⟩,
    ?_, rfl, ?_⟩
  · rw [Nat.toString_eq_ofList_toDigits, Numeral.text, Numeral.fractionPart, if_pos rfl,
      Numeral.powerPart, List.append_nil, List.append_nil]
  · simp [Numeral.decimal, Decimal.value]

namespace Decimal

variable (d : Decimal)

theorem all_digits_digitText : ∀ c ∈ d.digitText, c.isDigit = true := all_digits_toDigits d.digits

theorem digitText_ne_nil : d.digitText ≠ [] := Nat.toDigits_ne_nil

theorem natOfDigits_digitText : natOfDigits d.digitText = d.digits := natOfDigits_toDigits d.digits

theorem all_digits_zeros (n : Nat) : ∀ c ∈ List.replicate n '0', c.isDigit = true := by
  intro c hc
  rw [List.eq_of_mem_replicate hc]
  rfl

/-- Positional notation is a numeral without a power of ten. -/
theorem exists_positional :
    ∃ m : Numeral, d.positional = m.text ∧ m.power = none ∧ m.decimal.value = d.value := by
  by_cases hplace : 0 ≤ d.place
  · obtain ⟨zeros, hzeros⟩ := Int.eq_ofNat_of_zero_le hplace
    refine ⟨⟨d.digitText ++ List.replicate zeros '0', [], none, by simp [d.digitText_ne_nil],
      List.forall_mem_append.2 ⟨d.all_digits_digitText, all_digits_zeros zeros⟩, by simp⟩,
      ?_, rfl, ?_⟩
    · rw [positional, if_pos hplace, hzeros, Int.toNat_natCast, Numeral.text,
        Numeral.fractionPart, if_pos rfl, Numeral.powerPart, List.append_nil, List.append_nil]
    · simp only [Numeral.decimal, Decimal.value, List.append_nil, natOfDigits_append_zeros,
        natOfDigits_digitText, hzeros]
      simp
  · let places := (-d.place).toNat
    let padded := List.replicate (places + 1 - d.digitText.length) '0' ++ d.digitText
    have hplaces : d.place = -places := by simp only [places]; omega
    have hlength : places < padded.length := by
      simp only [padded, List.length_append, List.length_replicate]
      omega
    have hdigits : ∀ c ∈ padded, c.isDigit = true :=
      List.forall_mem_append.2 ⟨all_digits_zeros _, d.all_digits_digitText⟩
    have hfraction : padded.drop (padded.length - places) ≠ [] := by
      rw [ne_eq, List.drop_eq_nil_iff]
      omega
    refine ⟨⟨padded.take (padded.length - places), padded.drop (padded.length - places), none,
      ?_, fun c hc => hdigits c (List.mem_of_mem_take hc),
      fun c hc => hdigits c (List.mem_of_mem_drop hc)⟩, ?_, rfl, ?_⟩
    · rw [ne_eq, List.take_eq_nil_iff]
      rintro (h | h)
      · omega
      · rw [h] at hlength
        cases hlength
    · rw [positional, if_neg hplace, Numeral.text, Numeral.fractionPart, if_neg hfraction,
        Numeral.powerPart, List.append_nil]
    · have hcount : (padded.drop (padded.length - places)).length = places := by
        rw [List.length_drop]
        omega
      simp only [Numeral.decimal, Decimal.value, List.take_append_drop, hcount, hplaces]
      rw [natOfDigits_zeros_append, natOfDigits_digitText]
      simp

/-- Scientific notation is a numeral with a power of ten. -/
theorem exists_scientific :
    ∃ m : Numeral, d.scientific = m.text ∧ m.power.isSome ∧ m.decimal.value = d.value := by
  let fraction := if d.digitText.length ≤ 1 then ['0'] else d.digitText.drop 1
  let power := d.place + (d.digitText.length - 1 : Nat)
  have hpositive : 0 < d.digitText.length := List.length_pos_iff.2 d.digitText_ne_nil
  have hfraction : fraction ≠ [] := by
    simp only [fraction]
    split
    · simp
    · rw [ne_eq, List.drop_eq_nil_iff]
      assumption
  have hdigits : ∀ c ∈ fraction, c.isDigit = true := by
    simp only [fraction]
    split
    · simp
    · exact fun c hc => d.all_digits_digitText c (List.mem_of_mem_drop hc)
  refine ⟨⟨d.digitText.take 1, fraction, some power, ?_,
    fun c hc => d.all_digits_digitText c (List.mem_of_mem_take hc), hdigits⟩, ?_, rfl, ?_⟩
  · rw [ne_eq, List.take_eq_nil_iff]
    simp [d.digitText_ne_nil]
  · have htext : d.scientific
        = String.ofList (d.digitText.take 1 ++ '.' :: fraction) ++ "E" ++ toString power := rfl
    rw [htext, Numeral.text, Numeral.fractionPart, if_neg hfraction, Numeral.powerPart,
      ← String.toList_inj]
    simp
  · simp only [Numeral.decimal, Decimal.value, Option.getD_some]
    by_cases hsingle : d.digitText.length ≤ 1
    · have hall : d.digitText.take 1 ++ fraction = d.digitText ++ List.replicate 1 '0' := by
        rw [List.take_of_length_le hsingle]
        simp [fraction, hsingle]
      have hlength : fraction.length = 1 := by simp [fraction, hsingle]
      have hpower : power - (1 : Nat) = d.place - 1 := by simp only [power]; omega
      rw [hall, natOfDigits_append_zeros, natOfDigits_digitText, hlength, hpower,
        zpow_sub_one₀ (by norm_num)]
      push_cast
      ring
    · have hall : d.digitText.take 1 ++ fraction = d.digitText := by
        simp only [fraction, if_neg hsingle]
        exact List.take_append_drop 1 _
      have hlength : fraction.length = d.digitText.length - 1 := by simp [fraction, hsingle]
      have hpower : power - (d.digitText.length - 1 : Nat) = d.place := by
        simp only [power]
        omega
      rw [hall, natOfDigits_digitText, hlength, hpower]

end Decimal

end Lox.Number
