import Lox.Proofs.Lexemes

/-!
# Tokens written out

Tokens are written one after the other, with something between them that is no token: blanks, line ends,
and comments. A comment needs a blank before it, or else its first slash could be taken for one with a
slash before it. Whatever is chosen to stand there, reading gives the tokens back.

Each token ends where the blank behind it starts. It could only go on if the blank were a part of it, and
of all tokens only strings have blanks in them. But a string has ended at its second quote.
-/

namespace Lox.Source

/-- The text of the token forms a token of its kind. -/
def WellSpelt (t : Token) : Prop := Forms t.lexeme.toList t.kind

/-- Text that is no token: blanks, and comments up to the end of their line. -/
inductive Filler : List Char → Prop where
  | nil : Filler []
  | blank {c : Char} {cs : List Char} : isBlank c = true → Filler cs → Filler (c :: cs)
  | comment {line cs : List Char} :
      '\n' ∉ line → Filler cs → Filler ('/' :: '/' :: (line ++ '\n' :: cs))

/-- Text that can stand between two tokens, whatever they are. -/
inductive Separator : List Char → Prop where
  | mk {c : Char} {cs : List Char} : isBlank c = true → Filler cs → Separator (c :: cs)

/-- `Writes ts cs`: the text consists of the tokens, with separators between them. -/
inductive Writes : List Token → List Char → Prop where
  | nil : Writes [] []
  | last {t : Token} : WellSpelt t → Writes [t] t.lexeme.toList
  | cons {t t' : Token} {ts : List Token} {gap rest : List Char} :
      WellSpelt t → Separator gap → Writes (t' :: ts) rest →
      Writes (t :: t' :: ts) (t.lexeme.toList ++ (gap ++ rest))

section

variable {before text after rest : List Char} {kind : Token.Kind} {read : List Item}

/-- A token ends where a blank comes, or where the source ends. -/
theorem Forms.longest_of_blank (h : Forms text kind) (hafter : ∀ c ∈ after.head?, isBlank c = true) :
    Longest text (text ++ after) kind := by
  refine h.longest fun {text'} {_} _ hpre hfree => ?_
  refine Nat.le_of_not_lt fun hlt => ?_
  -- a longer token would start with the blank behind the shorter one
  obtain ⟨more, rfl⟩ := List.prefix_of_prefix_length_le (List.prefix_append text after) hpre
    (Nat.le_of_lt hlt)
  obtain ⟨further, hfurther⟩ := (List.prefix_append_right_inj text).mp hpre
  cases more with
  | nil => simp at hlt
  | cons c more =>
      have hblank := hafter c (by rw [← hfurther]; rfl)
      exact nomatch (hfree c (by simp)).symm.trans hblank

/-- No token starts a comment, unless a slash comes behind it. -/
theorem Forms.not_comment (h : Forms text kind) (hafter : ∀ c ∈ after.head?, isBlank c = true) :
    ¬ ['/', '/'] <+: text ++ after := by
  intro hcomment
  obtain ⟨c, cs, rfl⟩ := h.exists_cons
  obtain ⟨rfl, hslash⟩ := List.cons_prefix_cons.mp hcomment
  obtain ⟨s, hs, -⟩ := h.of_mark (by decide) (by decide) (by decide)
  obtain ⟨-, ⟨rfl, -⟩ | ⟨rfl, -⟩⟩ := symbol_lead hs
  · obtain ⟨further, rfl⟩ := hslash
    exact nomatch hafter '/' rfl
  · exact nomatch (List.cons_prefix_cons.mp hslash).1

/-- What is no token yields nothing. -/
theorem Filler.partitions {gap : List Char} (h : Filler gap) : ∀ {before : List Char},
    Partitions (before ++ gap) rest read → Partitions before (gap ++ rest) read := by
  induction h with
  | nil => intro before hrest; rwa [List.append_nil] at hrest
  | @blank c cs hc _ ih =>
      intro before hrest
      have hblank : Yields before [c] (cs ++ rest) none := .blank hc
      refine .next hblank (ih ?_)
      rwa [List.append_assoc]
  | @comment line cs hline _ ih =>
      intro before hrest
      have hcomment : Yields before ('/' :: '/' :: line) ('\n' :: (cs ++ rest)) none :=
        .comment hline (.inr ⟨_, rfl⟩)
      have hblank : Yields (before ++ '/' :: '/' :: line) ['\n'] (cs ++ rest) none := .blank rfl
      have hpartitions := Partitions.next hcomment (.next hblank (ih ?_))
      · simpa using hpartitions
      · simpa using hrest

end

/-- A source in which tokens are written out is cut at the separators. -/
theorem Writes.partitions {ts : List Token} {cs : List Char} (h : Writes ts cs) :
    ∀ before : List Char, ∃ ts' : List Token, Partitions before cs (ts'.map .token) ∧
      ts'.map (fun t => (t.kind, t.lexeme)) = ts.map fun t => (t.kind, t.lexeme) := by
  induction h with
  | nil => exact fun before => ⟨[], .done, rfl⟩
  | @last t ht =>
      intro before
      have hend : ∀ c ∈ ([] : List Char).head?, isBlank c = true := nofun
      have htoken : Yields before t.lexeme.toList [] _ :=
        .token (ht.longest_of_blank hend) (ht.not_comment hend)
      have hpartitions := Partitions.next htoken .done
      rw [List.append_nil] at hpartitions
      exact ⟨[_], hpartitions, by simp⟩
  | @cons t t' ts gap rest ht hgap _ ih =>
      intro before
      obtain ⟨ts', hrest, hsame⟩ := ih (before ++ t.lexeme.toList ++ gap)
      have hblank : ∀ c ∈ (gap ++ rest).head?, isBlank c = true := by
        obtain ⟨hc, -⟩ := hgap
        intro d hd
        cases hd
        exact hc
      have hfiller : Filler gap := by
        obtain ⟨hc, hcs⟩ := hgap
        exact .blank hc hcs
      have htoken : Yields before t.lexeme.toList (gap ++ rest) _ :=
        .token (ht.longest_of_blank hblank) (ht.not_comment hblank)
      exact ⟨_ :: ts', .next htoken (hfiller.partitions hrest), by simp [hsame]⟩

/-- **Reading undoes writing.** Tokens that are written out with separators between them are read back, each
with its kind, its text and the value that its text stands for. Nothing else is read but the end token, and
there are no faults. -/
theorem tokens_of_writes {ts : List Token} {cs : List Char} (h : Writes ts cs) :
    faults (String.ofList cs) = [] ∧
    (tokens (String.ofList cs)).map (fun t => (t.kind, t.lexeme))
      = ts.map (fun t => (t.kind, t.lexeme)) ++ [(.eof, "")] := by
  obtain ⟨ts', hpartitions, hsame⟩ := h.partitions []
  rw [← String.toList_ofList (l := cs)] at hpartitions
  obtain ⟨hfaults, htokens⟩ := hpartitions.only_tokens
  rw [htokens, List.map_append, hsame]
  exact ⟨hfaults, rfl⟩

/-- A number before a point, an operator before the start of another one, a name that goes on from a keyword,
and a string that looks like a comment. -/
theorem tokens_of_writes_apart :
    let one : Token := ⟨.number (Number.ofDigits ['1'] []), "1", 0⟩
    let symbol (s : Symbol) : Token := ⟨.symbol s, s.spelling, 0⟩
    let name : Token := ⟨.identifier, "classy", 0⟩
    let comment : Token := ⟨.string "// a\n=", "\"// a\n=\"", 0⟩
    let source := "1 // the point\n. !\t= classy\r\n\"// a\n=\" /"
    Writes [one, symbol .dot, symbol .bang, symbol .equal, name, comment, symbol .slash] source.toList ∧
      faults source = [] ∧
      (tokens source).map (fun t => (t.kind, t.lexeme)) =
        [(one.kind, "1"), (.symbol .dot, "."), (.symbol .bang, "!"), (.symbol .equal, "="),
          (.identifier, "classy"), (comment.kind, comment.lexeme), (.symbol .slash, "/"),
          (.eof, "")] := by
  intro one symbol name comment source
  have hone : Forms "1".toList one.kind := .whole (List.cons_ne_nil _ _) (by simp)
  have hsymbol (s : Symbol) : WellSpelt (symbol s) := Forms.symbol s
  have hname : Forms "classy".toList .identifier := by
    have htext : "classy".toList = ['c', 'l', 'a', 's', 's', 'y'] := rfl
    rw [htext]
    exact .name rfl (by simp [isNameRest, isNameStart]) fun k => by
      cases k <;> simp [Keyword.spelling]
  have hcomment : Forms "\"// a\n=\"".toList comment.kind := by
    have htext : "\"// a\n=\"".toList = '"' :: "// a\n=".toList ++ ['"'] := rfl
    rw [htext]
    exact .string (by simp)
  have hblank (c : Char) (hc : isBlank c = true) : Separator [c] := .mk hc .nil
  have hpoint : Separator (' ' :: '/' :: '/' :: (" the point".toList ++ ['\n'])) :=
    .mk rfl (.comment (by simp) .nil)
  have hline : Separator ['\r', '\n'] := .mk rfl (.blank rfl .nil)
  have hwrites := Writes.cons (show WellSpelt one from hone) hpoint
    (.cons (hsymbol .dot) (hblank ' ' rfl)
      (.cons (hsymbol .bang) (hblank '\t' rfl)
        (.cons (hsymbol .equal) (hblank ' ' rfl)
          (.cons (show WellSpelt name from hname) hline
            (.cons (show WellSpelt comment from hcomment) (hblank ' ' rfl)
              (.last (hsymbol .slash)))))))
  have hsource : Writes
      [one, symbol .dot, symbol .bang, symbol .equal, name, comment, symbol .slash]
      source.toList := by
    simpa [source, one, symbol, name, comment, Symbol.spelling] using hwrites
  have hread := tokens_of_writes hsource
  rw [String.ofList_toList] at hread
  exact ⟨hsource, hread⟩

end Lox.Source
