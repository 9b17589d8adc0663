import Mathlib
import Lox.Proofs.Source

/-!
# Lexemes

The vocabulary of the language, stated without a scanner: the texts that form a token, and what a
stretch of source text is when it is read where it stands. A token is the longest text there that
forms one. Reading a source cuts it into such stretches from left to right, in the one way there
is, and numbers each item by the lines that have ended before its own end.
-/

namespace Lox.Source

/-- `Forms text kind`: the text is that of a token of this kind. -/
inductive Forms : List Char → Token.Kind → Prop where
  | symbol (s : Symbol) : Forms s.spelling.toList (.symbol s)
  | string {contents : List Char} (hquote : '"' ∉ contents) :
      Forms ('"' :: contents ++ ['"']) (.string (String.ofList contents))
  | whole {digits : List Char} (hne : digits ≠ []) (hdigits : ∀ c ∈ digits, c.isDigit = true) :
      Forms digits (.number (Number.ofDigits digits []))
  | decimal {whole fraction : List Char}
      (hwhole : whole ≠ []) (hdigits : ∀ c ∈ whole, c.isDigit = true)
      (hfraction : fraction ≠ []) (hdigits' : ∀ c ∈ fraction, c.isDigit = true) :
      Forms (whole ++ '.' :: fraction) (.number (Number.ofDigits whole fraction))
  | keyword (k : Keyword) : Forms k.spelling.toList (.keyword k)
  | name {c : Char} {cs : List Char} (hstart : isNameStart c = true)
      (hrest : ∀ d ∈ cs, isNameRest d = true) (hfree : ∀ k : Keyword, k.spelling.toList ≠ c :: cs) :
      Forms (c :: cs) .identifier

/-- No longer text at the start of `rest` than `text` forms a token. -/
structure Longest (text rest : List Char) (kind : Token.Kind) : Prop where
  forms : Forms text kind
  longest : ∀ {text' : List Char} {kind' : Token.Kind},
    Forms text' kind' → text' <+: rest → text'.length ≤ text.length

/-- The line on which a source has arrived after `read`. -/
def lineAfter (read : List Char) : Nat := 1 + read.count '\n'

/-- `Yields before text after item?`: between the text before it and the text after it, a stretch
of a source yields this item, or none. -/
inductive Yields (before : List Char) : List Char → List Char → Option Item → Prop where
  | blank {c : Char} {after : List Char} (hc : isBlank c = true) : Yields before [c] after none
  | comment {line after : List Char} (hline : '\n' ∉ line)
      (hend : after = [] ∨ ∃ further, after = '\n' :: further) :
      Yields before ('/' :: '/' :: line) after none
  | token {text after : List Char} {kind : Token.Kind} (hmunch : Longest text (text ++ after) kind)
      (hcomment : ¬ ['/', '/'] <+: text ++ after) :
      Yields before text after
        (some (.token ⟨kind, String.ofList text, lineAfter (before ++ text)⟩))
  | strayCharacter {c : Char} {after : List Char} (hc : isBlank c = false)
      (hnone : ∀ {cs : List Char} {kind : Token.Kind}, ¬ Forms (c :: cs) kind) :
      Yields before [c] after
        (some (.fault ⟨lineAfter (before ++ [c]), .unspecified, .lexical .unexpectedCharacter⟩))
  | openString {contents : List Char} (hquote : '"' ∉ contents) :
      Yields before ('"' :: contents) []
        (some (.fault ⟨lineAfter (before ++ '"' :: contents), .unspecified,
          .lexical .unterminatedString⟩))

/-- `Partitions before rest read`: what is left of a source after `before` is cut, without a gap or
an overlap, into stretches that yield `read`. -/
inductive Partitions : List Char → List Char → List Item → Prop where
  | done {before : List Char} : Partitions before [] []
  | next {before text after : List Char} {item? : Option Item} {read : List Item}
      (hfirst : Yields before text after item?) (hrest : Partitions (before ++ text) after read) :
      Partitions before (text ++ after) (item?.toList ++ read)

/-! ## Stretches of characters of one kind -/

section

variable {p : Char → Bool} {cs rest : List Char}

theorem takeWhile_of_all (h : ∀ d ∈ cs, p d = true) :
    cs.takeWhile p = cs ∧ cs.dropWhile p = [] := by
  have htake : (cs ++ []).takeWhile p = cs ++ [] := List.takeWhile_append_of_pos h
  have hdrop : (cs ++ []).dropWhile p = [] := List.dropWhile_append_of_pos h
  rw [List.append_nil] at htake hdrop
  exact ⟨htake, hdrop⟩

theorem forall_mem_takeWhile : ∀ d ∈ cs.takeWhile p, p d = true :=
  List.all_eq_true.mp List.all_takeWhile

theorem length_le_takeWhile (h : ∀ d ∈ cs, p d = true) (hrest : cs <+: rest) :
    cs.length ≤ (rest.takeWhile p).length := by
  obtain ⟨after, rfl⟩ := hrest
  rw [List.takeWhile_append_of_pos h, List.length_append]
  exact Nat.le_add_right ..

variable {d : Char}

theorem bne_of_not_mem (h : d ∉ cs) : ∀ e ∈ cs, (e != d) = true := by
  intro e he
  rw [bne_iff_ne]
  rintro rfl
  exact h he

theorem not_mem_takeWhile (cs : List Char) : d ∉ cs.takeWhile (· != d) := by
  intro h
  exact bne_iff_ne.mp (forall_mem_takeWhile (p := (· != d)) d h) rfl

theorem eq_of_dropWhile {e : Char} (h : cs.dropWhile (· != d) = e :: rest) : e = d := by
  have hhead := List.head?_dropWhile_not (· != d) cs
  rw [h] at hhead
  simpa using hhead

end

/-! ## How texts of tokens start -/

/-- A symbol is one character or two, and no other token starts with its first one. -/
theorem symbol_spelling (s : Symbol) : ∃ c ∈ s.spelling.toList.head?,
    (isBlank c = false ∧ c ≠ '"' ∧ c.isDigit = false ∧ isNameStart c = false) ∧
    (s.spelling.toList = [c] ∧
        (symbolOf? c = some s ∨ c = '/' ∨ (extensibleSymbolOf? c).map Prod.fst = some s) ∨
      s.spelling.toList = [c, '='] ∧ (extensibleSymbolOf? c).map Prod.snd = some s) := by
  cases s <;> exact ⟨_, rfl, by decide⟩

theorem symbol_spelling_inj : ∀ s ∈ Symbol.all, ∀ s' ∈ Symbol.all,
    s.spelling.toList = s'.spelling.toList → s = s' := by
  decide

/-- A keyword is a word. -/
theorem keyword_spelling (k : Keyword) : ∃ c ∈ k.spelling.toList.head?,
    isNameStart c = true ∧ ∀ d ∈ k.spelling.toList.tail, isNameRest d = true := by
  cases k <;> exact ⟨_, rfl, by decide, List.all_eq_true.mp (by decide)⟩

theorem wordKind_spelling (k : Keyword) : wordKind k.spelling.toList = .keyword k := by
  rw [wordKind, String.ofList_toList, Keyword.ofSpelling?_spelling]

theorem wordKind_of_free {word : List Char} (h : ∀ k : Keyword, k.spelling.toList ≠ word) :
    wordKind word = .identifier := by
  have hnone : Keyword.ofSpelling? (String.ofList word) = none := by
    rw [Keyword.ofSpelling?, List.find?_eq_none]
    intro k _ hk
    exact h k (by rw [eq_of_beq hk, String.toList_ofList])
  rw [wordKind, hnone]

section

variable {c : Char}

theorem not_blank_of {p : Char → Bool} (h : p c = true)
    (hp : [' ', '\t', '\r', '\n'].all (!p ·) = true) : isBlank c = false := by
  cases hblank : isBlank c with
  | false => rfl
  | true =>
      have hmem : c ∈ [' ', '\t', '\r', '\n'] := by simpa [isBlank, or_assoc] using hblank
      have hnot : (!p c) = true := List.all_eq_true.mp hp c hmem
      rw [h] at hnot
      exact nomatch hnot

theorem digit_lead (h : c.isDigit = true) :
    isBlank c = false ∧ c ≠ '/' ∧ c ≠ '"' ∧ isNameStart c = false := by
  refine ⟨not_blank_of h (by decide), ?_, ?_, ?_⟩
  · rintro rfl
    exact nomatch h
  · rintro rfl
    exact nomatch h
  · by_cases hc : c = '_'
    · subst hc
      exact nomatch h
    · simp only [isNameStart, Char.isAlpha, Char.isUpper, Char.isLower, Char.isDigit] at h ⊢
      grind

theorem letter_lead (h : isNameStart c = true) :
    isBlank c = false ∧ c ≠ '/' ∧ c ≠ '"' ∧ c.isDigit = false := by
  refine ⟨not_blank_of h (by decide), ?_, ?_, ?_⟩
  · rintro rfl
    exact nomatch h
  · rintro rfl
    exact nomatch h
  · cases hc : c.isDigit with
    | false => rfl
    | true => exact h.symm.trans (digit_lead hc).2.2.2

variable {cs : List Char}

theorem symbol_lead {s : Symbol} (h : s.spelling.toList = c :: cs) :
    (isBlank c = false ∧ c ≠ '"' ∧ c.isDigit = false ∧ isNameStart c = false) ∧
    (cs = [] ∧ (symbolOf? c = some s ∨ c = '/' ∨ (extensibleSymbolOf? c).map Prod.fst = some s) ∨
      cs = ['='] ∧ (extensibleSymbolOf? c).map Prod.snd = some s) := by
  obtain ⟨d, hd, hlead⟩ := symbol_spelling s
  rw [h] at hd hlead
  cases hd
  simpa using hlead

theorem keyword_lead {k : Keyword} (h : k.spelling.toList = c :: cs) :
    isNameStart c = true ∧ ∀ d ∈ cs, isNameRest d = true := by
  obtain ⟨d, hd, hlead⟩ := keyword_spelling k
  rw [h] at hd hlead
  cases hd
  exact hlead

/-- The first character of a token decides what kind of token it is. -/
theorem Forms.lead {kind : Token.Kind} (h : Forms (c :: cs) kind) :
    (∃ s : Symbol, s.spelling.toList = c :: cs ∧ kind = .symbol s) ∨
    (c = '"' ∧ ∃ contents, cs = contents ++ ['"'] ∧ '"' ∉ contents ∧
      kind = .string (String.ofList contents)) ∨
    (c.isDigit = true ∧ ∃ whole fraction, (∀ d ∈ whole, d.isDigit = true) ∧
      (∀ d ∈ fraction, d.isDigit = true) ∧ kind = .number (Number.ofDigits whole fraction) ∧
      (c :: cs = whole ∧ fraction = [] ∨ c :: cs = whole ++ '.' :: fraction ∧ fraction ≠ [])) ∨
    (isNameStart c = true ∧ (∀ d ∈ cs, isNameRest d = true) ∧ kind = wordKind (c :: cs)) := by
  generalize htext : c :: cs = text at h
  cases h with
  | symbol s => exact .inl ⟨s, rfl, rfl⟩
  | string hquote =>
      cases htext
      exact .inr (.inl ⟨rfl, _, rfl, hquote, rfl⟩)
  | whole _ hdigits =>
      subst htext
      exact .inr (.inr (.inl ⟨hdigits c (List.mem_cons_self ..), c :: cs, [], hdigits, nofun, rfl,
        .inl ⟨rfl, rfl⟩⟩))
  | @decimal whole fraction hwhole hdigits hfraction hdigits' =>
      obtain ⟨d, ds, rfl⟩ := List.exists_cons_of_ne_nil hwhole
      cases htext
      exact .inr (.inr (.inl ⟨hdigits c (List.mem_cons_self ..), _, fraction, hdigits, hdigits',
        rfl, .inr ⟨rfl, hfraction⟩⟩))
  | keyword k =>
      obtain ⟨hstart, hrest⟩ := keyword_lead htext.symm
      exact .inr (.inr (.inr ⟨hstart, hrest, (wordKind_spelling k).symm⟩))
  | name hstart hrest hfree =>
      cases htext
      exact .inr (.inr (.inr ⟨hstart, hrest, (wordKind_of_free hfree).symm⟩))

variable {kind : Token.Kind}

theorem Forms.not_blank (h : Forms (c :: cs) kind) : isBlank c = false := by
  rcases h.lead with ⟨s, hs, -⟩ | ⟨rfl, -⟩ | ⟨hc, -⟩ | ⟨hc, -⟩
  · exact (symbol_lead hs).1.1
  · rfl
  · exact (digit_lead hc).1
  · exact (letter_lead hc).1

theorem Forms.of_quote (h : Forms ('"' :: cs) kind) :
    ∃ contents, cs = contents ++ ['"'] ∧ '"' ∉ contents ∧
      kind = .string (String.ofList contents) := by
  rcases h.lead with ⟨s, hs, -⟩ | ⟨-, hcontents⟩ | ⟨hc, -⟩ | ⟨hc, -⟩
  · exact absurd rfl (symbol_lead hs).1.2.1
  · exact hcontents
  · exact absurd rfl (digit_lead hc).2.2.1
  · exact absurd rfl (letter_lead hc).2.2.1

theorem Forms.of_digit (h : Forms (c :: cs) kind) (hdigit : c.isDigit = true) :
    ∃ whole fraction, (∀ d ∈ whole, d.isDigit = true) ∧ (∀ d ∈ fraction, d.isDigit = true) ∧
      kind = .number (Number.ofDigits whole fraction) ∧
      (c :: cs = whole ∧ fraction = [] ∨ c :: cs = whole ++ '.' :: fraction ∧ fraction ≠ []) := by
  rcases h.lead with ⟨s, hs, -⟩ | ⟨hc, -⟩ | ⟨-, hnumeral⟩ | ⟨hc, -⟩
  · exact nomatch hdigit.symm.trans (symbol_lead hs).1.2.2.1
  · exact absurd hc (digit_lead hdigit).2.2.1
  · exact hnumeral
  · exact nomatch hdigit.symm.trans (letter_lead hc).2.2.2

theorem Forms.of_letter (h : Forms (c :: cs) kind) (hletter : isNameStart c = true) :
    (∀ d ∈ cs, isNameRest d = true) ∧ kind = wordKind (c :: cs) := by
  rcases h.lead with ⟨s, hs, -⟩ | ⟨hc, -⟩ | ⟨hc, -⟩ | ⟨-, hword⟩
  · exact nomatch hletter.symm.trans (symbol_lead hs).1.2.2.2
  · exact absurd hc (letter_lead hletter).2.2.1
  · exact nomatch hc.symm.trans (letter_lead hletter).2.2.2
  · exact hword

theorem Forms.of_mark (h : Forms (c :: cs) kind) (hquote : c ≠ '"') (hdigit : c.isDigit ≠ true)
    (hletter : isNameStart c ≠ true) :
    ∃ s : Symbol, s.spelling.toList = c :: cs ∧ kind = .symbol s := by
  rcases h.lead with hsymbol | ⟨hc, -⟩ | ⟨hc, -⟩ | ⟨hc, -⟩
  · exact hsymbol
  · exact absurd hc hquote
  · exact absurd hc hdigit
  · exact absurd hc hletter

/-- A number can be read off its text. -/
theorem numeral_parts {text whole fraction : List Char} (hwhole : ∀ d ∈ whole, d.isDigit = true)
    (h : text = whole ∧ fraction = [] ∨ text = whole ++ '.' :: fraction ∧ fraction ≠ []) :
    text.takeWhile Char.isDigit = whole ∧ (text.dropWhile Char.isDigit).drop 1 = fraction := by
  rcases h with ⟨rfl, rfl⟩ | ⟨rfl, -⟩
  · obtain ⟨htake, hdrop⟩ := takeWhile_of_all hwhole
    rw [htake, hdrop]
    exact ⟨rfl, rfl⟩
  · rw [List.takeWhile_append_of_pos hwhole, List.dropWhile_append_of_pos hwhole]
    exact ⟨List.append_nil whole, rfl⟩

/-- No text forms two kinds of token. -/
theorem Forms.kind_eq {kind' : Token.Kind} (h : Forms (c :: cs) kind)
    (h' : Forms (c :: cs) kind') : kind = kind' := by
  by_cases hquote : c = '"'
  · subst hquote
    obtain ⟨contents, hcontents, -, rfl⟩ := h.of_quote
    obtain ⟨contents', hcontents', -, rfl⟩ := h'.of_quote
    rw [List.append_cancel_right (hcontents.symm.trans hcontents')]
  by_cases hdigit : c.isDigit = true
  · obtain ⟨whole, fraction, hwhole, -, rfl, htext⟩ := h.of_digit hdigit
    obtain ⟨whole', fraction', hwhole', -, rfl, htext'⟩ := h'.of_digit hdigit
    obtain ⟨hw, hf⟩ := numeral_parts hwhole htext
    obtain ⟨hw', hf'⟩ := numeral_parts hwhole' htext'
    rw [← hw, ← hf, ← hw', ← hf']
  by_cases hletter : isNameStart c = true
  · exact (h.of_letter hletter).2.trans (h'.of_letter hletter).2.symm
  · obtain ⟨s, hs, rfl⟩ := h.of_mark hquote hdigit hletter
    obtain ⟨s', hs', rfl⟩ := h'.of_mark hquote hdigit hletter
    rw [symbol_spelling_inj s (Symbol.mem_all s) s' (Symbol.mem_all s') (hs.trans hs'.symm)]

end

/-! ## The longest token -/

theorem Forms.exists_cons {text : List Char} {kind : Token.Kind} (h : Forms text kind) :
    ∃ c cs, text = c :: cs := by
  apply List.exists_cons_of_ne_nil
  rintro rfl
  generalize htext : [] = text at h
  cases h with
  | symbol s =>
      obtain ⟨c, hc, -⟩ := symbol_spelling s
      rw [← htext] at hc
      exact nomatch hc
  | string => exact nomatch htext
  | whole hne => exact hne htext.symm
  | decimal hwhole => exact hwhole (List.append_eq_nil_iff.mp htext.symm).1
  | keyword k =>
      obtain ⟨c, hc, -⟩ := keyword_spelling k
      rw [← htext] at hc
      exact nomatch hc
  | name => exact nomatch htext

/-- The first character of a source is the first one of all that form a token there. -/
theorem Forms.head_eq {text : List Char} {kind : Token.Kind} {c : Char} {cs : List Char}
    (h : Forms text kind) (hpre : text <+: c :: cs) :
    ∃ cs', text = c :: cs' ∧ cs' <+: cs := by
  obtain ⟨d, ds, rfl⟩ := h.exists_cons
  obtain ⟨rfl, hds⟩ := List.cons_prefix_cons.mp hpre
  exact ⟨ds, rfl, hds⟩

section

variable (c : Char) (cs : List Char)

/-- A number is as long as its digits, or goes on behind a point that a digit follows. -/
theorem numeral_length {text : List Char} {kind : Token.Kind} (h : Forms text kind)
    (hpre : text <+: c :: cs) (hc : c.isDigit = true) :
    text.length ≤ (cs.takeWhile Char.isDigit).length + 1 ∨
      ∃ d rest, cs.dropWhile Char.isDigit = '.' :: d :: rest ∧ d.isDigit = true ∧
        text.length
          ≤ (cs.takeWhile Char.isDigit).length + (rest.takeWhile Char.isDigit).length + 3 := by
  obtain ⟨cs', rfl, hcs'⟩ := h.head_eq hpre
  obtain ⟨whole, fraction, hwhole, hfraction, -, htext⟩ := h.of_digit hc
  rcases htext with ⟨rfl, -⟩ | ⟨htext, hne⟩
  · left
    have hrest := (List.forall_mem_cons.mp hwhole).2
    exact Nat.succ_le_succ (length_le_takeWhile hrest hcs')
  · right
    obtain ⟨d, ds, rfl⟩ := List.exists_cons_of_ne_nil hne
    obtain ⟨after, rfl⟩ := hcs'
    cases whole with
    | nil =>
        cases htext
        exact nomatch hc
    | cons e whole =>
        rw [List.cons_append] at htext
        obtain ⟨rfl, rfl⟩ := List.cons.inj htext
        have hdigits : ∀ e ∈ whole, e.isDigit = true := fun e he =>
          hwhole e (List.mem_cons_of_mem _ he)
        have hds : ds.length ≤ ((ds ++ after).takeWhile Char.isDigit).length :=
          length_le_takeWhile (fun e he => hfraction e (List.mem_cons_of_mem _ he))
            (List.prefix_append ..)
        rw [List.append_assoc, List.takeWhile_append_of_pos hdigits,
          List.dropWhile_append_of_pos hdigits]
        refine ⟨d, ds ++ after, rfl, hfraction d (List.mem_cons_self ..), ?_⟩
        simp only [List.length_cons, List.length_append]
        omega

theorem numberPiece_longest (hc : c.isDigit = true) :
    ∃ kind, (numberPiece c cs).1.kind = .token kind ∧
      Longest (numberPiece c cs).1.text (c :: cs) kind := by
  have hwhole : ∀ d ∈ c :: cs.takeWhile Char.isDigit, d.isDigit = true :=
    List.forall_mem_cons.mpr ⟨hc, forall_mem_takeWhile⟩
  have hplain : Forms (c :: cs.takeWhile Char.isDigit)
      (.number (Number.ofDigits (c :: cs.takeWhile Char.isDigit) [])) :=
    .whole (List.cons_ne_nil _ _) hwhole
  unfold numberPiece
  split
  · next d rest hdrop =>
    split
    · next hd =>
      refine ⟨_, rfl, .decimal (List.cons_ne_nil _ _) hwhole (List.cons_ne_nil _ _)
        (List.forall_mem_cons.mpr ⟨hd, forall_mem_takeWhile⟩), fun h hpre => ?_⟩
      simp only [List.length_append, List.length_cons]
      rcases numeral_length c cs h hpre hc with hle | ⟨d', rest', hdrop', -, hle⟩
      · omega
      · cases hdrop.symm.trans hdrop'
        omega
    · next hd =>
      refine ⟨_, rfl, hplain, fun h hpre => ?_⟩
      rcases numeral_length c cs h hpre hc with hle | ⟨d', rest', hdrop', hd', -⟩
      · exact hle
      · cases hdrop.symm.trans hdrop'
        exact absurd hd' hd
  · next hdrop =>
    refine ⟨_, rfl, hplain, fun h hpre => ?_⟩
    rcases numeral_length c cs h hpre hc with hle | ⟨d', rest', hdrop', -⟩
    · exact hle
    · exact absurd hdrop' (hdrop _ _)

theorem Forms.word {c : Char} {cs : List Char} (hc : isNameStart c = true)
    (hcs : ∀ d ∈ cs, isNameRest d = true) : Forms (c :: cs) (wordKind (c :: cs)) := by
  by_cases hkeyword : ∃ k : Keyword, k.spelling.toList = c :: cs
  · obtain ⟨k, hk⟩ := hkeyword
    rw [← hk, wordKind_spelling]
    exact .keyword k
  · have hfree : ∀ k : Keyword, k.spelling.toList ≠ c :: cs := not_exists.mp hkeyword
    rw [wordKind_of_free hfree]
    exact .name hc hcs hfree

theorem word_longest (hc : isNameStart c = true) :
    Longest (c :: cs.takeWhile isNameRest) (c :: cs) (wordKind (c :: cs.takeWhile isNameRest)) := by
  refine ⟨.word hc forall_mem_takeWhile, fun h hpre => ?_⟩
  obtain ⟨cs', rfl, hcs'⟩ := h.head_eq hpre
  exact Nat.succ_le_succ (length_le_takeWhile (h.of_letter hc).1 hcs')

theorem string_longest {contents rest : List Char} (hquote : '"' ∉ contents) :
    Longest ('"' :: contents ++ ['"']) ('"' :: (contents ++ '"' :: rest))
      (.string (String.ofList contents)) := by
  refine ⟨.string hquote, fun h hpre => ?_⟩
  obtain ⟨cs', rfl, hcs'⟩ := h.head_eq hpre
  obtain ⟨contents', rfl, hquote', -⟩ := h.of_quote
  have hle := length_le_takeWhile (bne_of_not_mem hquote') ((List.prefix_append ..).trans hcs')
  rw [List.takeWhile_append_of_pos (bne_of_not_mem hquote), List.takeWhile_cons_of_neg (by decide),
    List.append_nil] at hle
  simp only [List.length_cons, List.length_append]
  omega

theorem slash_longest : Longest ['/'] ('/' :: cs) (.symbol .slash) := by
  refine ⟨.symbol .slash, fun h hpre => ?_⟩
  obtain ⟨cs', rfl, hcs'⟩ := h.head_eq hpre
  obtain ⟨s, hs, -⟩ := h.of_mark (by decide) (by decide) (by decide)
  obtain ⟨-, ⟨rfl, -⟩ | ⟨-, hlong⟩⟩ := symbol_lead hs
  · exact Nat.le_refl 1
  · exact nomatch hlong

end

/-! ## Blanks end all tokens but strings -/

theorem not_blank_of_nameRest {c : Char} (h : isNameRest c = true) : isBlank c = false := by
  rcases Bool.or_eq_true_iff.mp h with hletter | hdigit
  · exact (letter_lead hletter).1
  · exact (digit_lead hdigit).1

/-- Of all tokens only strings have blanks in them. -/
theorem Forms.quote_of_blank {c d : Char} {cs : List Char} {kind : Token.Kind}
    (h : Forms (c :: cs) kind) (hd : d ∈ c :: cs) (hblank : isBlank d = true) : c = '"' := by
  have hmark (hfree : isBlank d = false) : c = '"' := nomatch hfree.symm.trans hblank
  rcases h.lead with ⟨s, hs, -⟩ | ⟨hc, -⟩ | ⟨-, whole, fraction, hwhole, hfraction, -, htext⟩ |
    ⟨hc, hcs, -⟩
  · obtain ⟨⟨hc, -⟩, ⟨rfl, -⟩ | ⟨rfl, -⟩⟩ := symbol_lead hs
    · obtain rfl := List.mem_singleton.mp hd
      exact hmark hc
    · rcases List.mem_pair.mp hd with rfl | rfl
      · exact hmark hc
      · exact hmark rfl
  · exact hc
  · rcases htext with ⟨htext, -⟩ | ⟨htext, -⟩
    · exact hmark (digit_lead (hwhole d (htext ▸ hd))).1
    · rw [htext, List.mem_append, List.mem_cons] at hd
      rcases hd with hd | rfl | hd
      · exact hmark (digit_lead (hwhole d hd)).1
      · exact hmark rfl
      · exact hmark (digit_lead (hfraction d hd)).1
  · rcases List.mem_cons.mp hd with rfl | hd
    · exact hmark (letter_lead hc).1
    · exact hmark (not_blank_of_nameRest (hcs d hd))

/-- A token is the longest one if no longer one without blanks stands there: a string ends at its
second quote, whatever is behind it. -/
theorem Forms.longest {text after : List Char} {kind : Token.Kind} (h : Forms text kind)
    (hshort : ∀ {text' : List Char} {kind' : Token.Kind}, Forms text' kind' →
      text' <+: text ++ after → (∀ d ∈ text', isBlank d = false) → text'.length ≤ text.length) :
    Longest text (text ++ after) kind := by
  obtain ⟨c, cs, rfl⟩ := h.exists_cons
  by_cases hquote : c = '"'
  · subst hquote
    obtain ⟨contents, rfl, hcontents, rfl⟩ := h.of_quote
    have hstring : Longest _ ('"' :: (contents ++ '"' :: after)) _ := string_longest hcontents
    simpa using hstring
  · refine ⟨h, fun h' hpre => hshort h' hpre fun d hd => ?_⟩
    obtain ⟨cs', rfl, -⟩ := h'.head_eq hpre
    exact Bool.eq_false_iff.mpr fun hblank => hquote (h'.quote_of_blank hd hblank)

/-! ## The scanner reads the longest token -/

theorem symbolOf?_spelling {c : Char} {s : Symbol} (h : symbolOf? c = some s) :
    s.spelling.toList = [c] := by
  unfold symbolOf? at h
  split at h
  all_goals cases h
  all_goals rfl

theorem extensibleSymbolOf?_spelling {c : Char} {short long : Symbol}
    (h : extensibleSymbolOf? c = some (short, long)) :
    symbolOf? c = none ∧ short.spelling.toList = [c] ∧ long.spelling.toList = [c, '='] := by
  unfold extensibleSymbolOf? at h
  split at h
  all_goals cases h
  all_goals exact ⟨rfl, rfl, rfl⟩

section

variable {before : List Char} {c : Char} {cs : List Char}

theorem token_yields {p : Piece} {after : List Char} {kind : Token.Kind}
    (hkind : p.kind = .token kind) (happend : p.text ++ after = c :: cs)
    (hmunch : Longest p.text (c :: cs) kind) (hcomment : ¬ ['/', '/'] <+: c :: cs) :
    Yields before p.text after (p.item? (lineAfter (before ++ p.text))) := by
  rw [← happend] at hmunch hcomment
  rw [Piece.item?, hkind]
  exact .token hmunch hcomment

theorem not_comment (hc : c ≠ '/') : ¬ ['/', '/'] <+: c :: cs := by
  intro h
  exact hc (List.cons_prefix_cons.mp h).1.symm

theorem slashPiece_yields : Yields before (slashPiece cs).1.text (slashPiece cs).2
    ((slashPiece cs).1.item? (lineAfter (before ++ (slashPiece cs).1.text))) := by
  unfold slashPiece
  split
  · next line =>
    refine .comment (not_mem_takeWhile line) ?_
    cases hrest : line.dropWhile (· != '\n') with
    | nil => exact .inl rfl
    | cons d further => exact .inr ⟨further, by rw [eq_of_dropWhile hrest]⟩
  · next hslash =>
    refine token_yields rfl rfl (slash_longest cs) ?_
    rintro ⟨after, hafter⟩
    exact hslash after (List.cons.inj hafter).2.symm

theorem stringPiece_yields : Yields before (stringPiece cs).1.text (stringPiece cs).2
    ((stringPiece cs).1.item? (lineAfter (before ++ (stringPiece cs).1.text))) := by
  have hquote : '"' ∉ cs.takeWhile (· != '"') := not_mem_takeWhile cs
  unfold stringPiece
  split
  · exact .openString hquote
  · next quote rest hrest =>
    obtain rfl := eq_of_dropWhile hrest
    have happend := takeWhile_append_dropWhile_cons _ hrest
    have hmunch : Longest _ ('"' :: (cs.takeWhile (· != '"') ++ '"' :: rest)) _ :=
      string_longest hquote
    rw [happend] at hmunch
    refine token_yields rfl ?_ hmunch (not_comment (by decide))
    simpa using happend

/-- A symbol is longer than one character only where an equals sign goes on with it. -/
theorem symbol_longest {s : Symbol} {text : List Char} (hspelling : s.spelling.toList = text)
    (hpre : text <+: c :: cs) (hquote : c ≠ '"') (hdigit : c.isDigit ≠ true)
    (hletter : isNameStart c ≠ true)
    (hlong : text.length = 1 → ['='] <+: cs → extensibleSymbolOf? c = none) :
    Longest text (c :: cs) (.symbol s) := by
  subst hspelling
  obtain ⟨cs', hcs', -⟩ := (Forms.symbol s).head_eq hpre
  refine ⟨.symbol s, fun h hpre' => ?_⟩
  obtain ⟨ds, rfl, hds⟩ := h.head_eq hpre'
  obtain ⟨s', hs', -⟩ := h.of_mark hquote hdigit hletter
  rw [hcs'] at hlong ⊢
  obtain ⟨-, ⟨rfl, -⟩ | ⟨rfl, hext⟩⟩ := symbol_lead hs'
  · exact Nat.succ_le_succ (Nat.zero_le _)
  · cases cs' with
    | nil =>
        rw [hlong rfl hds] at hext
        exact nomatch hext
    | cons e cs' => exact Nat.succ_le_succ (Nat.succ_le_succ (Nat.zero_le _))

/-- **The scanner cuts off what stands first in the source.** -/
theorem firstPiece_yields (before : List Char) (c : Char) (cs : List Char) :
    Yields before (firstPiece c cs).1.text (firstPiece c cs).2
      ((firstPiece c cs).1.item? (lineAfter (before ++ (firstPiece c cs).1.text))) := by
  unfold firstPiece
  split
  · next hblank => exact .blank hblank
  next hblank =>
  split
  · next hslash => exact slashPiece_yields
  next hslash =>
  have hslash : c ≠ '/' := by simpa using hslash
  split
  · exact stringPiece_yields
  next hquote =>
  have hquote : c ≠ '"' := by simpa using hquote
  split
  · next hdigit =>
    obtain ⟨kind, hkind, hmunch⟩ := numberPiece_longest c cs hdigit
    exact token_yields hkind (numberPiece_append c cs) hmunch (not_comment hslash)
  next hdigit =>
  split
  · next hletter =>
    refine token_yields rfl ?_ (word_longest c cs hletter) (not_comment hslash)
    rw [List.cons_append, List.takeWhile_append_dropWhile]
  next hletter =>
  split
  · next s _ hs =>
    refine token_yields rfl rfl ?_ (not_comment hslash)
    refine symbol_longest (symbolOf?_spelling hs) (List.prefix_append [c] _) hquote hdigit hletter
      ?_
    intro _ _
    cases hext : extensibleSymbolOf? c with
    | none => rfl
    | some symbols => exact nomatch hs.symm.trans (extensibleSymbolOf?_spelling hext).1
  · next short long rest hnone hext =>
    refine token_yields rfl rfl ?_ (not_comment hslash)
    refine symbol_longest (extensibleSymbolOf?_spelling hext).2.2 (List.prefix_append [c, '='] rest)
      hquote hdigit hletter nofun
  · next short long hnone hext hrest =>
    refine token_yields rfl rfl ?_ (not_comment hslash)
    refine symbol_longest (extensibleSymbolOf?_spelling hext).2.1 (List.prefix_append [c] _)
      hquote hdigit hletter ?_
    rintro _ ⟨after, rfl⟩
    exact absurd rfl (hrest after)
  · next hnone hext =>
    refine .strayCharacter (Bool.eq_false_iff.mpr hblank) fun h => ?_
    obtain ⟨s, hs, -⟩ := h.of_mark hquote hdigit hletter
    obtain ⟨-, ⟨-, hshort⟩ | ⟨-, hlong⟩⟩ := symbol_lead hs
    · simp [hnone, hext, hslash] at hshort
    · simp [hext] at hlong

end

/-! ## There is one way to cut a source -/

/-- A character that the scanner takes for the start of a token is the start of one. -/
theorem firstPiece_stray {c : Char} (cs : List Char) (hblank : isBlank c = false)
    (hnone : ∀ {cs : List Char} {kind : Token.Kind}, ¬ Forms (c :: cs) kind) :
    firstPiece c cs = (⟨.strayCharacter, [c]⟩, cs) := by
  have hslash : c ≠ '/' := by
    rintro rfl
    exact hnone (.symbol .slash)
  have hquote : c ≠ '"' := by
    rintro rfl
    exact hnone (.string (List.not_mem_nil : '"' ∉ []))
  have hdigit : c.isDigit = false := Bool.eq_false_iff.mpr fun hdigit =>
    hnone (.whole (List.cons_ne_nil c []) (by simpa using hdigit))
  have hletter : isNameStart c = false := Bool.eq_false_iff.mpr fun hletter =>
    hnone (.word hletter fun d (hd : d ∈ []) => nomatch hd)
  have hsymbol : symbolOf? c = none := by
    cases hs : symbolOf? c with
    | none => rfl
    | some s => exact absurd (symbolOf?_spelling hs ▸ Forms.symbol s) hnone
  have hext : extensibleSymbolOf? c = none := by
    cases hs : extensibleSymbolOf? c with
    | none => rfl
    | some symbols =>
        exact absurd ((extensibleSymbolOf?_spelling hs).2.1 ▸ Forms.symbol symbols.1) hnone
  simp [firstPiece, hblank, hslash, hquote, hdigit, hletter, hsymbol, hext]

theorem comment_firstPiece {line after : List Char} (hline : '\n' ∉ line)
    (hend : after = [] ∨ ∃ further, after = '\n' :: further) :
    firstPiece '/' ('/' :: line ++ after) = (⟨.comment, '/' :: '/' :: line⟩, after) := by
  obtain ⟨htake, hdrop⟩ := takeWhile_of_all (bne_of_not_mem hline)
  have hslash : firstPiece '/' ('/' :: line ++ after) = slashPiece ('/' :: (line ++ after)) := rfl
  rw [hslash, slashPiece]
  rcases hend with rfl | ⟨further, rfl⟩
  · rw [List.append_nil, htake, hdrop]
  · rw [takeWhile_append_line (p := (· != '\n')) (by decide),
      dropWhile_append_line (p := (· != '\n')) (by decide), htake, hdrop, List.nil_append]

theorem openString_firstPiece {contents : List Char} (hquote : '"' ∉ contents) :
    firstPiece '"' contents = (⟨.openString, '"' :: contents⟩, []) := by
  obtain ⟨htake, hdrop⟩ := takeWhile_of_all (bne_of_not_mem hquote)
  have hstring : firstPiece '"' contents = stringPiece contents := rfl
  rw [hstring, stringPiece, hdrop, htake]

section

variable {before text after : List Char} {item? : Option Item}

/-- Where a text forms the longest token, nothing else stands. -/
theorem Yields.eq_of_longest {text' after' : List Char} {kind : Token.Kind}
    (h : Yields before text' after' item?) (hmunch : Longest text (text ++ after) kind)
    (hcomment : ¬ ['/', '/'] <+: text ++ after) (happend : text' ++ after' = text ++ after) :
    text' = text ∧ after' = after ∧
      item? = some (.token ⟨kind, String.ofList text, lineAfter (before ++ text)⟩) := by
  obtain ⟨c, cs, rfl⟩ := hmunch.forms.exists_cons
  cases h with
  | blank hc =>
      obtain ⟨rfl, -⟩ := List.cons.inj happend
      exact nomatch hc.symm.trans hmunch.forms.not_blank
  | comment =>
      rw [← happend] at hcomment
      exact absurd (List.prefix_append ['/', '/'] _) hcomment
  | @token _ _ kind' hmunch' _ =>
      have hle := hmunch.longest hmunch'.forms ⟨after', happend⟩
      have hle' := hmunch'.longest hmunch.forms ⟨after, happend.symm⟩
      obtain ⟨rfl, rfl⟩ := List.append_inj happend (Nat.le_antisymm hle hle')
      rw [hmunch'.forms.kind_eq hmunch.forms]
      exact ⟨rfl, rfl, rfl⟩
  | strayCharacter _ hnone =>
      obtain ⟨rfl, -⟩ := List.cons.inj happend
      exact absurd hmunch.forms hnone
  | @openString contents hquote =>
      rw [List.append_nil] at happend
      obtain ⟨rfl, rfl⟩ := List.cons.inj happend
      obtain ⟨contents', rfl, -⟩ := hmunch.forms.of_quote
      exact absurd (by simp) hquote

/-- What stands first in a source is what the scanner cuts off. -/
theorem Yields.firstPiece_eq (h : Yields before text after item?) :
    ∃ c cs p, text ++ after = c :: cs ∧ firstPiece c cs = (p, after) ∧ p.text = text ∧
      p.item? (lineAfter (before ++ text)) = item? := by
  cases h with
  | @blank c _ hc => exact ⟨c, after, ⟨.blank, [c]⟩, rfl, by simp [firstPiece, hc], rfl, rfl⟩
  | @comment line _ hline hend =>
      exact ⟨'/', _, _, rfl, comment_firstPiece hline hend, rfl, rfl⟩
  | @token _ _ kind hmunch hcomment =>
      obtain ⟨c, cs, rfl⟩ := hmunch.forms.exists_cons
      have hfirst := firstPiece_yields before c (cs ++ after)
      obtain ⟨htext, hafter, hitem⟩ :=
        hfirst.eq_of_longest hmunch hcomment (firstPiece_append c (cs ++ after))
      refine ⟨c, cs ++ after, (firstPiece c (cs ++ after)).1, rfl, Prod.ext rfl hafter, htext, ?_⟩
      rwa [htext] at hitem
  | @strayCharacter c _ hc hnone =>
      exact ⟨c, after, _, rfl, firstPiece_stray after hc hnone, rfl, rfl⟩
  | @openString contents hquote =>
      exact ⟨'"', contents, _, List.append_nil _, openString_firstPiece hquote, rfl, rfl⟩

end

section

variable {before rest : List Char} {read : List Item}

theorem lastLine_eq (p : Piece) : p.lastLine (lineAfter before) = lineAfter (before ++ p.text) := by
  rw [Piece.lastLine, lineAfter, lineAfter, List.count_append, Nat.add_assoc]

/-- A source is read in the one way it can be cut. -/
theorem Partitions.itemsFrom_eq (h : Partitions before rest read) :
    itemsFrom (lineAfter before) (pieces rest)
      = read ++ [.token ⟨.eof, "", lineAfter (before ++ rest)⟩] := by
  induction h with
  | done => rw [pieces, itemsFrom, List.append_nil, List.nil_append]
  | @next before text after item? read hfirst _ ih =>
      obtain ⟨c, cs, p, happend, hpiece, rfl, rfl⟩ := hfirst.firstPiece_eq
      rw [happend, pieces, hpiece, itemsFrom, lastLine_eq, ih, ← happend, ← List.append_assoc,
        List.append_assoc before]

/-- Every source can be cut. -/
theorem exists_partitions (rest : List Char) : ∀ before : List Char,
    ∃ read, Partitions before rest read := by
  fun_induction pieces rest with
  | case1 => exact fun _ => ⟨[], .done⟩
  | case2 c cs ih =>
      intro before
      obtain ⟨read, hread⟩ := ih (before ++ (firstPiece c cs).1.text)
      have hpartitions := Partitions.next (firstPiece_yields before c cs) hread
      rw [firstPiece_append] at hpartitions
      exact ⟨_, hpartitions⟩

end

/-- A source that is cut into nothing but tokens has no faults. -/
theorem Partitions.only_tokens {source : String} {ts : List Token}
    (h : Partitions [] source.toList (ts.map .token)) :
    faults source = [] ∧ tokens source = ts ++ [⟨.eof, "", lineAfter source.toList⟩] := by
  let stop : Token := ⟨.eof, "", lineAfter source.toList⟩
  have hitems : items source = (ts ++ [stop]).map .token := by
    rw [List.map_append]
    exact h.itemsFrom_eq
  rw [faults, tokens, hitems, List.filterMap_map, List.filterMap_map]
  exact ⟨List.filterMap_eq_nil_iff.mpr fun _ _ => rfl, List.filterMap_some⟩

theorem Yields.forms {before text after : List Char} {t : Token}
    (h : Yields before text after (some (.token t))) : Forms t.lexeme.toList t.kind := by
  cases h with
  | token hmunch =>
      rw [String.toList_ofList]
      exact hmunch.forms

/-- Every token that is read has a text that tokens of its kind can have. -/
theorem Partitions.forms {before rest : List Char} {read : List Item}
    (h : Partitions before rest read) : ∀ t, .token t ∈ read → Forms t.lexeme.toList t.kind := by
  induction h with
  | done => exact fun _ ht => nomatch ht
  | next hfirst _ ih =>
      intro t ht
      rcases List.mem_append.mp ht with ht | ht
      · rw [Option.mem_toList] at ht
        rw [ht] at hfirst
        exact hfirst.forms
      · exact ih t ht

theorem Partitions.kind_ne_eof {before rest : List Char} {read : List Item}
    (h : Partitions before rest read) : ∀ t, .token t ∈ read → t.kind ≠ .eof := by
  intro t ht hkind
  have hforms := h.forms t ht
  rw [hkind] at hforms
  generalize t.lexeme.toList = text at hforms
  exact nomatch hforms

/-- **Reading a source loses none of it.** What is read before the end token is what the source
yields when it is cut, from left to right and without a gap or an overlap, into blanks, comments,
tokens as long as they can be, and stretches that are no token. There is no other way to cut it.
The end token comes last, and only there. -/
theorem items_partition (source : String) : ∃ read,
    items source = read ++ [.token ⟨.eof, "", lineAfter source.toList⟩] ∧
    (∀ t, .token t ∈ read → t.kind ≠ .eof) ∧
    Partitions [] source.toList read ∧
    ∀ read', Partitions [] source.toList read' → read' = read := by
  have hread : ∀ {read}, Partitions [] source.toList read →
      items source = read ++ [.token ⟨.eof, "", lineAfter source.toList⟩] := fun h => h.itemsFrom_eq
  obtain ⟨read, h⟩ := exists_partitions source.toList []
  refine ⟨read, hread h, h.kind_ne_eof, h, fun read' h' => ?_⟩
  exact List.append_cancel_right ((hread h').symm.trans (hread h))

example : items "a // b\n!==\x00\"c" = [
    .token ⟨.identifier, "a", 1⟩, .token ⟨.symbol .bangEqual, "!=", 2⟩,
    .token ⟨.symbol .equal, "=", 2⟩, .fault ⟨2, .unspecified, .lexical .unexpectedCharacter⟩,
    .fault ⟨2, .unspecified, .lexical .unterminatedString⟩, .token ⟨.eof, "", 2⟩] := by
  cbv

end Lox.Source
