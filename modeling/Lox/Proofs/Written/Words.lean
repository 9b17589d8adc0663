import Lox.Proofs.Lexemes.Writing
import Lox.Proofs.Numbers.Texts
import Lox.Proofs.Renaming
import Lox.Proofs.Written.Terms

/-!
# Words

The words in the written form of a program are texts of tokens and of constants. Texts of names,
keywords and operators are read as the scanner reads them, so a token can be told from its text but
for the line on which it stands. The text of a number need not be one token, since it may have an
exponent: it is read as an exact decimal, and rounded.
-/

namespace Lox

open Source (Forms WellSpelt)

/-- Takes all numbers and all lines away. -/
def Renaming.blank : Renaming := ⟨fun _ => 0, fun _ => 0⟩

namespace Written

/-! ## Tokens -/

/-- What the scanner takes the text for. -/
def kindOf (text : String) : Token.Kind := ((Source.tokens text).map Token.kind).headD .eof

/-- The token with this text, on no line. -/
def tokenOf (text : String) : Token := ⟨kindOf text, text, 0⟩

/-- The kinds of tokens whose text is written down. -/
def isWritten : Token.Kind → Bool
  | .identifier | .keyword _ => true
  | .symbol s => s ≠ .leftParen && s ≠ .rightParen
  | _ => false

variable {c : Char} {text : String} {kind : Token.Kind} {t : Token}

theorem endsWord_of {p : Char → Bool} (h : p c = true)
    (hp : [' ', '(', ')'].all (!p ·) = true) : endsWord c = false := by
  rw [Bool.eq_false_iff]
  intro hends
  have hmem : c ∈ [' ', '(', ')'] := by simpa [endsWord, or_assoc] using hends
  have hnot : (!p c) = true := List.all_eq_true.1 hp c hmem
  rw [h] at hnot
  cases hnot

theorem endsWord_of_digit (h : c.isDigit = true) : endsWord c = false := endsWord_of h (by decide)

/-- Names, keywords and operators are words. -/
theorem isWord_of_forms (h : Forms text.toList kind) (hkind : isWritten kind = true) :
    IsWord text := by
  obtain ⟨c, cs, hchars⟩ := h.exists_cons
  refine ⟨by simp [hchars], ?_⟩
  generalize text.toList = chars at h
  cases h with
  | symbol s =>
    have hall : ∀ s ∈ Symbol.all, isWritten (.symbol s) = true →
        s.spelling.toList.all (!endsWord ·) = true := by decide
    simpa using hall s (Symbol.mem_all s) hkind
  | keyword k =>
    have hall : ∀ k ∈ Keyword.all, k.spelling.toList.all (!endsWord ·) = true := by decide
    simpa using hall k (Keyword.mem_all k)
  | name hstart hrest =>
    intro d hd
    have hname : Source.isNameRest d = true := by
      rcases List.mem_cons.1 hd with rfl | hd
      · exact Bool.or_eq_true_iff.2 (.inl hstart)
      · exact hrest d hd
    exact endsWord_of hname (by decide)
  | _ => cases hkind

/-- The scanner takes the text of a token for what it is. -/
theorem kindOf_of_forms (h : Forms text.toList kind) (hkind : isWritten kind = true) :
    kindOf text = kind := by
  have hend : ∀ c ∈ ([] : List Char).head?, Source.isBlank c = true := nofun
  have hcomment := h.not_comment hend
  rw [List.append_nil] at hcomment
  have hline : '\n' ∉ text.toList := by
    obtain ⟨c, cs, hchars⟩ := h.exists_cons
    rw [hchars] at h ⊢
    intro hmem
    obtain rfl := h.quote_of_blank hmem rfl
    obtain ⟨contents, -, -, rfl⟩ := h.of_quote
    cases hkind
  rw [kindOf, (Number.tokens_of_forms h hline hcomment).2]
  rfl

theorem tokenOf_lexeme (h : WellSpelt t) (hkind : isWritten t.kind = true) :
    tokenOf t.lexeme = t.renamed .blank := by
  rw [tokenOf, kindOf_of_forms h hkind]
  rfl

theorem lexeme_of_symbol (h : WellSpelt t) {s : Symbol} (hkind : t.kind = .symbol s) :
    t.lexeme = s.spelling := by
  rw [WellSpelt, hkind] at h
  generalize hchars : t.lexeme.toList = chars at h
  cases h
  exact String.toList_inj.1 hchars

theorem lexeme_of_keyword (h : WellSpelt t) {k : Keyword} (hkind : t.kind = .keyword k) :
    t.lexeme = k.spelling := by
  rw [WellSpelt, hkind] at h
  generalize hchars : t.lexeme.toList = chars at h
  cases h
  exact String.toList_inj.1 hchars

end Written

/-! ## Numbers -/

namespace Number

-- powers of natural numbers are those of the core library, under any imports
attribute [local instance (2000)] instPowNat

/-- The double nearest to a decimal. -/
def Decimal.nearest (d : Decimal) : Float :=
  Float.ofScientific (d.digits * 10 ^ d.place.toNat) true (-d.place).toNat

/-- The double nearest to the decimal that a text stands for. -/
def ofText (text : String) : Float :=
  match readText text with
  | some (_, d) => d.nearest
  | none => 0

variable {n : Float} {size : Magnitude}

theorem Decimal.nearest_eq {d : Decimal} (h : RoundsTo false d.value n) : d.nearest = n := by
  refine ofScientific_eq ?_
  have hvalue : ((d.digits * 10 ^ d.place.toNat : Nat) : ℚ) / 10 ^ (-d.place).toNat = d.value := by
    rcases Int.eq_nat_or_neg d.place with ⟨place, hplace | hplace⟩
    · simp [Decimal.value, hplace]
    · simp [Decimal.value, hplace, div_eq_mul_inv]
  rwa [hvalue]

/-- Printed numbers are read back. -/
theorem ofText_text (h : read n = .finite false size) : ofText (text n) = n := by
  obtain ⟨d, hd, hrounds⟩ := readText_text h
  rw [ofText, hd]
  exact d.nearest_eq hrounds

/-- Nothing in the text of an integer ends a word. -/
theorem endsWord_of_integer {power : Int} {c : Char} (hc : c ∈ (toString power).toList) :
    Written.endsWord c = false := by
  obtain ⟨n, ⟨-, htext⟩ | ⟨-, htext⟩⟩ := toList_toString_int power
  · exact Written.endsWord_of_digit (all_digits_toDigits n c (htext ▸ hc))
  · rw [htext] at hc
    rcases List.mem_cons.1 hc with rfl | hc
    · rfl
    · exact Written.endsWord_of_digit (all_digits_toDigits n c hc)

theorem Numeral.isWord (m : Numeral) : Written.IsWord m.text := by
  have hchars : m.text.toList = m.whole ++ (m.fractionPart ++ m.powerPart) := String.toList_ofList
  refine ⟨by simp [hchars, m.whole_ne_nil], ?_⟩
  rw [hchars]
  simp only [List.mem_append]
  rintro c (hc | hc | hc)
  · exact Written.endsWord_of_digit (m.whole_digits c hc)
  · unfold fractionPart at hc
    split at hc
    · cases hc
    · rcases List.mem_cons.1 hc with rfl | hc
      · rfl
      · exact Written.endsWord_of_digit (m.fraction_digits c hc)
  · unfold powerPart at hc
    split at hc
    · cases hc
    · rcases List.mem_cons.1 hc with rfl | hc
      · rfl
      · exact endsWord_of_integer hc

/-- The text of a number without a sign is a word, and starts with a digit. -/
theorem isWord_text (h : read n = .finite false size) :
    Written.IsWord (text n) ∧ ∃ c ∈ (text n).toList.head?, c.isDigit = true := by
  obtain ⟨k, -, rfl⟩ := exists_of_read h
  obtain ⟨m, htext, -⟩ := exists_numeral h
  have hsign : text n = m.text := htext
  rw [hsign]
  refine ⟨m.isWord, ?_⟩
  obtain ⟨c, whole, hc⟩ := List.exists_cons_of_ne_nil m.whole_ne_nil
  refine ⟨c, ?_, m.whole_digits c (hc ▸ List.mem_cons_self ..)⟩
  rw [Numeral.text, String.toList_ofList, hc]
  rfl

end Number

end Lox
