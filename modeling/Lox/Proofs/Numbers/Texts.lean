import Lox.Proofs.Lexemes
import Lox.Proofs.Numbers.Numerals
import Lox.Proofs.Numbers.Rounding

/-!
# Texts of numbers lose nothing

The text of a finite double is a numeral with a sign, in one of three notations. Its decimal is
rounded to the double: it is the double itself where a whole number is printed, and the shortest
decimal elsewhere. So the text says which double it is the text of, and whatever notations two texts
are in, they are the same only for numbers that are the same value. A scanner that reads the text
without an exponent makes one number of it and rounds it back.
-/

namespace Lox.Number

-- powers of natural numbers are those of the core library, under any imports
attribute [local instance (2000)] instPowNat

open Float.Model (UnpackedFloat)

variable {a b n : Float} {negative : Bool} {k : Nat}

/-! ## Equality -/

/-- The same values are read alike. -/
theorem same_iff : same a b = true ↔ read a = read b := by
  by_cases ha : a.isNaN = true
  · rw [same, ha, isNaN_iff_read.1 ha, Bool.true_or, if_pos rfl, Bool.true_and, isNaN_iff_read]
    exact eq_comm
  by_cases hb : b.isNaN = true
  · rw [same, hb, isNaN_iff_read.1 hb, Bool.or_true, if_pos rfl, Bool.and_true, isNaN_iff_read]
  · rw [same, Bool.eq_false_iff.2 ha, Bool.eq_false_iff.2 hb, read_inj, ← Float.toBits_inj]
    simp

/-! ## Finite doubles -/

theorem isFinite_iff_read : n.isFinite = true ↔ ∃ negative size, read n = .finite negative size := by
  have hfinite : n.isFinite = n.toModel.unpack.isFinite := rfl
  rw [hfinite, read_eq]
  cases n.toModel.unpack <;>
    simp [Float.Model.UnpackedFloat.isFinite, Reading.ofUnpacked]

/-- Positive numbers have no sign. -/
theorem not_negative_of_pos {size : Magnitude} (h : 0 < n) (hn : read n = .finite negative size) :
    negative = false := by
  have hzero : (0 : Float).toModel.unpack = .zero .positive := by
    have hread : read 0 = .finite false ⟨0, -1074⟩ := by decide +kernel
    rw [read_eq] at hread
    exact (unpacked_of_finite hread).elim And.left fun ⟨pos, _⟩ => absurd pos (Nat.lt_irrefl 0)
  have hlt : UnpackedFloat.lt (0 : Float).toModel.unpack n.toModel.unpack = true :=
    of_decide_eq_true h
  rw [read_eq] at hn
  rw [hzero] at hlt
  cases hunpacked : n.toModel.unpack with
  | zero sign => rw [hunpacked] at hlt; cases hlt
  | finite sign mantissa exponent pos =>
    rw [hunpacked] at hn hlt
    cases sign
    · cases hlt
    · exact (Reading.finite.inj hn).1.symm
  | _ => rw [hunpacked] at hn; cases hn

/-- The text of a finite double is a numeral that is rounded to it. -/
theorem exists_numeral (h : read n = .finite negative (.nth k)) :
    ∃ m : Numeral, text n = signed negative m.text ∧ Magnitude.Attracts k m.decimal.value := by
  rw [text, h]
  simp only
  split
  · obtain ⟨m, htext, -, hvalue⟩ := (Magnitude.nth k).shortest.exists_scientific
    exact ⟨m, by rw [htext], hvalue ▸ Magnitude.attracts_shortest k⟩
  split
  · rename_i whole hwhole
    obtain ⟨m, htext, -, hvalue⟩ := exists_whole whole
    refine ⟨m, by rw [htext], ?_⟩
    rw [hvalue, ← Magnitude.value_of_whole hwhole]
    exact Magnitude.attracts_value k
  · obtain ⟨m, htext, -, hvalue⟩ := (Magnitude.nth k).shortest.exists_positional
    exact ⟨m, by rw [htext], hvalue ▸ Magnitude.attracts_shortest k⟩

/-- The text of a finite double is read as a decimal that is rounded to the double. -/
theorem readText_text {size : Magnitude} (h : read n = .finite negative size) :
    ∃ d, readText (text n) = some (negative, d) ∧ RoundsTo negative d.value n := by
  obtain ⟨k, -, rfl⟩ := exists_of_read h
  obtain ⟨m, htext, hattracts⟩ := exists_numeral h
  refine ⟨m.decimal, by rw [htext, m.readText_signed], roundsTo_of_attracts h ?_ hattracts⟩
  unfold Decimal.value
  positivity

/-- What is not finite is one of three values. -/
theorem read_of_not_finite (h : n.isFinite = false) :
    read n ∈ [.nan, .infinite false, .infinite true] := by
  cases hread : read n with
  | nan => decide
  | infinite negative => cases negative <;> decide
  | finite negative size => cases h.symm.trans (isFinite_iff_read.2 ⟨negative, size, hread⟩)

/-- The text is a numeral if the double is finite, and only then. -/
theorem isSome_readText (n : Float) : (readText (text n)).isSome = n.isFinite := by
  cases hfinite : n.isFinite with
  | true =>
    obtain ⟨negative, size, hread⟩ := isFinite_iff_read.1 hfinite
    obtain ⟨d, hd, -⟩ := readText_text hread
    rw [hd]
    rfl
  | false =>
    have hread := read_of_not_finite hfinite
    simp only [List.mem_cons, List.not_mem_nil, or_false] at hread
    rcases hread with hread | hread | hread <;> (rw [text, hread]; rfl)

/-- Numbers with the same text are the same value. -/
theorem read_eq_of_text_eq (h : text a = text b) : read a = read b := by
  have hsame : a.isFinite = b.isFinite := by rw [← isSome_readText, ← isSome_readText, h]
  cases hfinite : b.isFinite with
  | true =>
    obtain ⟨negative, size, hread⟩ := isFinite_iff_read.1 (hsame.trans hfinite)
    obtain ⟨negative', size', hread'⟩ := isFinite_iff_read.1 hfinite
    obtain ⟨d, hd, hrounds⟩ := readText_text hread
    obtain ⟨d', hd', hrounds'⟩ := readText_text hread'
    rw [← h, hd, Option.some.injEq, Prod.mk.injEq] at hd'
    obtain ⟨rfl, rfl⟩ := hd'
    rw [hrounds.unique hrounds']
  | false =>
    have hread := read_of_not_finite (hsame.trans hfinite)
    have hread' := read_of_not_finite hfinite
    simp only [List.mem_cons, List.not_mem_nil, or_false] at hread hread'
    rw [text, text] at h
    rcases hread with hread | hread | hread <;> rcases hread' with hread' | hread' | hread' <;>
      rw [hread, hread'] at h ⊢ <;> exact absurd h (by decide)

/-! ## Scanning -/

/-- A numeral without a power of ten is a number for the scanner. -/
theorem Numeral.forms {m : Numeral} (h : m.power = none) :
    Source.Forms m.text.toList (.number (ofDigits m.whole m.fraction)) := by
  have hpower : m.powerPart = [] := by rw [Numeral.powerPart, h]
  rw [Numeral.text, String.toList_ofList, hpower, List.append_nil, Numeral.fractionPart]
  split
  · rename_i hfraction
    rw [hfraction, List.append_nil]
    exact .whole m.whole_ne_nil m.whole_digits
  · rename_i hfraction
    exact .decimal m.whole_ne_nil m.whole_digits hfraction m.fraction_digits

/-- A text that is one token is read as this token and the end. -/
theorem tokens_of_forms {s : String} {kind : Token.Kind} (h : Source.Forms s.toList kind)
    (hline : '\n' ∉ s.toList) (hcomment : ¬ ['/', '/'] <+: s.toList) :
    Source.faults s = [] ∧ Source.tokens s = [⟨kind, s, 1⟩, ⟨.eof, "", 1⟩] := by
  have hlines : Source.lineAfter s.toList = 1 := by
    rw [Source.lineAfter, List.count_eq_zero_of_not_mem hline]
  have hmunch : Source.Longest s.toList (s.toList ++ []) kind := by
    rw [List.append_nil]
    exact ⟨h, fun _ hprefix => hprefix.length_le⟩
  have hyields := @Source.Yields.token [] s.toList [] kind hmunch (by rwa [List.append_nil])
  have hcut : Source.Partitions [] (s.toList ++ []) ([⟨kind, s, 1⟩].map .token) := by
    have := Source.Partitions.next hyields .done
    rwa [List.nil_append, hlines, String.ofList_toList] at this
  rw [List.append_nil] at hcut
  simpa [hlines] using hcut.only_tokens

/-- What is written of a numeral without a power of ten. -/
theorem Numeral.mem_text {m : Numeral} (h : m.power = none) {c : Char} (hc : c ∈ m.text.toList) :
    c.isDigit = true ∨ c = '.' := by
  have hpower : m.powerPart = [] := by rw [Numeral.powerPart, h]
  rw [Numeral.text, String.toList_ofList, hpower, List.append_nil, List.mem_append,
    Numeral.fractionPart] at hc
  rcases hc with hc | hc
  · exact .inl (m.whole_digits c hc)
  split at hc
  · cases hc
  · rcases List.mem_cons.1 hc with rfl | hc
    · exact .inr rfl
    · exact .inl (m.fraction_digits c hc)

/-- A positive number is what the scanner makes of its text, if there is no exponent in it. -/
theorem tokens_text (hpos : 0 < n) (hfinite : n.isFinite = true) (hplain : 'E' ∉ (text n).toList) :
    Source.faults (text n) = [] ∧
      Source.tokens (text n) = [⟨.number n, text n, 1⟩, ⟨.eof, "", 1⟩] := by
  obtain ⟨negative, size, hread⟩ := isFinite_iff_read.1 hfinite
  obtain rfl := not_negative_of_pos hpos hread
  obtain ⟨k, -, rfl⟩ := exists_of_read hread
  obtain ⟨m, htext, hattracts⟩ := exists_numeral hread
  have hsign : text n = m.text := htext
  have hpower : m.power = none := by
    by_contra hsome
    obtain ⟨power, hpower⟩ := Option.ne_none_iff_exists'.1 hsome
    refine hplain ?_
    rw [hsign, Numeral.text, Numeral.powerPart, hpower, String.toList_ofList]
    simp
  have hpayload : ofDigits m.whole m.fraction = n := by
    refine ofScientific_eq ?_
    have hvalue : m.decimal.value
        = (natOfDigits (m.whole ++ m.fraction) : ℚ) / 10 ^ m.fraction.length := by
      rw [Numeral.decimal, Decimal.value, hpower]
      simp [div_eq_mul_inv]
    rw [← hvalue]
    exact roundsTo_of_attracts hread (by unfold Decimal.value; positivity) hattracts
  have hforms := m.forms hpower
  rw [hpayload] at hforms
  rw [hsign]
  refine tokens_of_forms hforms (fun hline => ?_) (fun hcomment => ?_)
  · exact (m.mem_text hpower hline).elim (by decide) (by decide)
  · exact (m.mem_text hpower (hcomment.subset (List.mem_cons_self ..))).elim (by decide) (by decide)

/-- **The text of a number loses nothing.** Read as an exact decimal, the text of a finite double is
rounded to that double and to no other. Two doubles have the same text if and only if they are the
same value. The text of a positive double, if it has no exponent, is read by the scanner as one
number, which is the double. -/
theorem text_lossless :
    (∀ n : Float, n.isFinite = true → ∃ negative d, readText (text n) = some (negative, d) ∧
      ∀ m : Float, RoundsTo negative d.value m ↔ m.toBits = n.toBits) ∧
    (∀ a b : Float, text a = text b ↔ same a b = true) ∧
    (∀ n : Float, 0 < n → n.isFinite = true → 'E' ∉ (text n).toList →
      Source.faults (text n) = [] ∧
        Source.tokens (text n) = [⟨.number n, text n, 1⟩, ⟨.eof, "", 1⟩]) := by
  refine ⟨fun n hfinite => ?_, fun a b => ?_, fun n => tokens_text⟩
  · obtain ⟨negative, size, hread⟩ := isFinite_iff_read.1 hfinite
    obtain ⟨d, hd, hrounds⟩ := readText_text hread
    refine ⟨negative, d, hd, fun m => ?_⟩
    rw [Float.toBits_inj]
    exact ⟨fun h => h.unique hrounds, fun h => h ▸ hrounds⟩
  · rw [same_iff]
    refine ⟨read_eq_of_text_eq, fun h => ?_⟩
    rw [text, text, h]

/-- One half is printed as `0.5`. -/
theorem text_lossless_half :
    (∀ m : Float, RoundsTo false (Decimal.value ⟨5, -1⟩) m ↔ m.toBits = 0x3FE0000000000000) ∧
    Source.tokens "0.5" =
      [⟨.number (.ofBits 0x3FE0000000000000), "0.5", 1⟩, ⟨.eof, "", 1⟩] := by
  let half := Float.ofBits 0x3FE0000000000000
  have htext : text half = "0.5" := by decide +kernel
  have hdecimal : readText "0.5" = some (false, ⟨5, -1⟩) := by decide +kernel
  have hbits : half.toBits = 0x3FE0000000000000 := by decide +kernel
  have hfinite : half.isFinite = true := by decide +kernel
  have hpositive : 0 < half := by decide +kernel
  have hplain : 'E' ∉ (text half).toList := by
    rw [htext]
    decide
  obtain ⟨hreads, -, hscans⟩ := text_lossless
  refine ⟨?_, ?_⟩
  · obtain ⟨negative, d, hd, hrounds⟩ := hreads half hfinite
    rw [htext, hdecimal, Option.some.injEq, Prod.mk.injEq] at hd
    obtain ⟨rfl, rfl⟩ := hd
    rwa [hbits] at hrounds
  · have hscan := (hscans half hpositive hfinite hplain).2
    rwa [htext] at hscan

end Lox.Number
