import Lox.Program.Written

/-!
# Terms

The written form of a tree is a term: a word, or terms in parentheses with a blank between them. A
term can be told from its text, whatever follows it, as long as that starts with a blank or a closing
parenthesis: an opening parenthesis says that the term is no word, a word ends where one of these
characters stands, and neither is in a word.
-/

namespace Lox.Written

/-- The characters that end a word. -/
def endsWord (c : Char) : Bool := c == ' ' || c == '(' || c == ')'

/-- A word without any of the characters that end one. -/
structure IsWord (text : String) : Prop where
  ne_nil : text.toList ≠ []
  free : ∀ c ∈ text.toList, endsWord c = false

theorem isWord_iff {text : String} :
    (!text.toList.isEmpty && text.toList.all (!endsWord ·)) = true ↔ IsWord text := by
  rw [Bool.and_eq_true, List.all_eq_true, Bool.not_eq_true', List.isEmpty_eq_false_iff]
  exact ⟨fun h => ⟨h.1, fun c hc => by simpa using h.2 c hc⟩,
    fun h => ⟨h.ne_nil, fun c hc => by simpa using h.free c hc⟩⟩

instance (text : String) : Decidable (IsWord text) := decidable_of_iff _ isWord_iff

/-- What is written down for a part of a tree. -/
inductive Term where
  | word (text : String)
  | list (parts : List Term)

namespace Term

mutual

/-- The text of a term. -/
def chars : Term → List Char
  | .word text => text.toList
  | .list parts => '(' :: (charsInside parts ++ [')'])

/-- The text between the parentheses. -/
def charsInside : List Term → List Char
  | [] => []
  | t :: ts => t.chars ++ charsAfter ts

/-- The text of terms, each after a blank. -/
def charsAfter : List Term → List Char
  | [] => []
  | t :: ts => ' ' :: (t.chars ++ charsAfter ts)

end

/-! ## Terms that can be read -/

mutual

/-- All words in the term are words. -/
def Readable : Term → Prop
  | .word text => IsWord text
  | .list parts => AllReadable parts

def AllReadable : List Term → Prop
  | [] => True
  | t :: ts => t.Readable ∧ AllReadable ts

end

theorem readable_headed {head : String} {parts : List Term} (h : AllReadable parts)
    (hhead : IsWord head := by decide) : (Term.list (.word head :: parts)).Readable :=
  ⟨hhead, h⟩

/-- What may follow a term: another one, the end of a list, or nothing. -/
def Follows (rest : List Char) : Prop := ∀ c ∈ rest.head?, c = ' ' ∨ c = ')'

theorem follows_charsAfter (ts : List Term) (rest : List Char) :
    Follows (charsAfter ts ++ ')' :: rest) := by
  cases ts with
  | nil => exact fun c hc => .inr (Option.some.inj hc).symm
  | cons t ts => exact fun c hc => .inl (Option.some.inj hc).symm

/-- Where a term starts there is neither a blank nor a closing parenthesis. -/
theorem head_chars : ∀ {t : Term}, t.Readable → ∃ c cs, t.chars = c :: cs ∧ c ≠ ' ' ∧ c ≠ ')'
  | .word text, h => by
    obtain ⟨c, cs, hc⟩ := List.exists_cons_of_ne_nil h.ne_nil
    have hfree := h.free c (hc ▸ List.mem_cons_self ..)
    refine ⟨c, cs, hc, ?_, ?_⟩ <;> (rintro rfl; cases hfree)
  | .list parts, _ => ⟨'(', _, rfl, by decide, by decide⟩

theorem charsInside_append_ne {ts : List Term} (h : AllReadable ts) (hne : ts ≠ [])
    (rest rest' : List Char) : charsInside ts ++ rest ≠ ')' :: rest' := by
  cases ts with
  | nil => exact absurd rfl hne
  | cons t ts =>
    obtain ⟨c, cs, hc, -, hparen⟩ := head_chars h.1
    rw [charsInside, hc]
    exact fun heq => hparen (List.cons.inj heq).1

/-! ## Reading terms -/

variable {rest rest' : List Char}

/-- A word is what stands before the first character that ends one. -/
theorem takeWhile_word {text : String} (h : IsWord text) (hrest : Follows rest) :
    (text.toList ++ rest).takeWhile (fun c => !endsWord c) = text.toList ∧
      (text.toList ++ rest).dropWhile (fun c => !endsWord c) = rest := by
  have hall : ∀ c ∈ text.toList, (!endsWord c) = true := fun c hc => by rw [h.free c hc]; rfl
  rw [List.takeWhile_append_of_pos hall, List.dropWhile_append_of_pos hall]
  cases rest with
  | nil => simp
  | cons c cs =>
    have hends : endsWord c = true := by rcases hrest c rfl with rfl | rfl <;> rfl
    simp [hends]

mutual

/-- A term can be told from a text that starts with it. -/
theorem chars_inj : ∀ {t t' : Term}, t.Readable → t'.Readable → ∀ {rest rest' : List Char},
    Follows rest → Follows rest' → t.chars ++ rest = t'.chars ++ rest' → t = t' ∧ rest = rest'
  | .word text, .word text', h, h', rest, rest', hrest, hrest', heq => by
    obtain ⟨htake, hdrop⟩ := takeWhile_word h hrest
    obtain ⟨htake', hdrop'⟩ := takeWhile_word h' hrest'
    have hwords : text.toList ++ rest = text'.toList ++ rest' := heq
    rw [hwords, htake'] at htake
    rw [hwords, hdrop'] at hdrop
    exact ⟨congrArg Term.word (String.toList_inj.1 htake.symm), hdrop.symm⟩
  | .word text, .list parts, h, _, rest, rest', _, _, heq => by
    obtain ⟨c, cs, hc⟩ := List.exists_cons_of_ne_nil h.ne_nil
    have hopens : text.toList ++ rest = '(' :: (charsInside parts ++ [')'] ++ rest') := heq
    rw [hc] at hopens
    obtain ⟨rfl, -⟩ := List.cons.inj hopens
    exact nomatch h.free '(' (hc ▸ List.mem_cons_self ..)
  | .list parts, .word text, _, h, rest, rest', _, _, heq => by
    obtain ⟨c, cs, hc⟩ := List.exists_cons_of_ne_nil h.ne_nil
    have hopens : '(' :: (charsInside parts ++ [')'] ++ rest) = text.toList ++ rest' := heq
    rw [hc] at hopens
    obtain ⟨rfl, -⟩ := List.cons.inj hopens
    exact nomatch h.free '(' (hc ▸ List.mem_cons_self ..)
  | .list parts, .list parts', h, h', rest, rest', _, _, heq => by
    have hinside : charsInside parts ++ ')' :: rest = charsInside parts' ++ ')' :: rest' := by
      simpa [chars] using heq
    obtain ⟨rfl, rfl⟩ := charsInside_inj h h' hinside
    exact ⟨rfl, rfl⟩

theorem charsInside_inj : ∀ {ts ts' : List Term}, AllReadable ts → AllReadable ts' →
    ∀ {rest rest' : List Char}, charsInside ts ++ ')' :: rest = charsInside ts' ++ ')' :: rest' →
    ts = ts' ∧ rest = rest'
  | [], [], _, _, rest, rest', heq => ⟨rfl, (List.cons.inj heq).2⟩
  | [], t' :: ts', _, h', rest, rest', heq =>
    absurd heq.symm (charsInside_append_ne h' (List.cons_ne_nil _ _) _ _)
  | t :: ts, [], h, _, rest, rest', heq =>
    absurd heq (charsInside_append_ne h (List.cons_ne_nil _ _) _ _)
  | t :: ts, t' :: ts', h, h', rest, rest', heq => by
    rw [charsInside, charsInside, List.append_assoc, List.append_assoc] at heq
    obtain ⟨rfl, hafter⟩ :=
      chars_inj h.1 h'.1 (follows_charsAfter ts rest) (follows_charsAfter ts' rest') heq
    obtain ⟨rfl, rfl⟩ := charsAfter_inj h.2 h'.2 hafter
    exact ⟨rfl, rfl⟩

theorem charsAfter_inj : ∀ {ts ts' : List Term}, AllReadable ts → AllReadable ts' →
    ∀ {rest rest' : List Char}, charsAfter ts ++ ')' :: rest = charsAfter ts' ++ ')' :: rest' →
    ts = ts' ∧ rest = rest'
  | [], [], _, _, rest, rest', heq => ⟨rfl, (List.cons.inj heq).2⟩
  | [], t' :: ts', _, _, rest, rest', heq => absurd (List.cons.inj heq).1 (by decide)
  | t :: ts, [], _, _, rest, rest', heq => absurd (List.cons.inj heq).1 (by decide)
  | t :: ts, t' :: ts', h, h', rest, rest', heq => by
    rw [charsAfter, charsAfter, List.cons_append, List.cons_append, List.append_assoc,
      List.append_assoc] at heq
    obtain ⟨rfl, hafter⟩ := chars_inj h.1 h'.1 (follows_charsAfter ts rest)
      (follows_charsAfter ts' rest') (List.cons.inj heq).2
    obtain ⟨rfl, rfl⟩ := charsAfter_inj h.2 h'.2 hafter
    exact ⟨rfl, rfl⟩

end

/-- **A term is told by its text.** -/
theorem eq_of_chars_eq {t t' : Term} (h : t.Readable) (h' : t'.Readable)
    (heq : t.chars = t'.chars) : t = t' :=
  have hends : Follows [] := nofun
  (chars_inj h h' hends hends (congrArg (· ++ []) heq)).1

end Term

end Lox.Written
