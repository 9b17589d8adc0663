import Lox.Proofs.Lexemes.Writing

/-!
# Text that is no token

A source is read to its end, whatever characters are in it. A character that starts no token and a string
that is left open are reported, and then reading goes on as if blanks stood there.

Blanks in place of the reported text could make a difference to a token before it, if that token could
now be longer. But no token that could be longer has a blank in it, except in a string. And where there
was a string, its quotes are still there.
-/

namespace Lox.Source

/-- The text of a piece, with spaces for what is reported. Lines end where they did. -/
def Piece.blanked (p : Piece) : List Char :=
  match p.kind with
  | .strayCharacter => p.text.map fun _ => ' '
  | .openString => p.text.map fun c => if c = '\n' then c else ' '
  | _ => p.text

/-- A source with spaces for all of its text that is no token. -/
def blanked (source : String) : String :=
  String.ofList ((pieces source.toList).flatMap Piece.blanked)

/-- The text in pieces of one kind. -/
def textOf (kind : PieceKind) (ps : List Piece) : List Char :=
  (ps.filter (·.kind = kind)).flatMap Piece.text

/-- The characters of a source at which no token starts, outside of tokens and comments. -/
def strayCharacters (source : String) : List Char := textOf .strayCharacter (pieces source.toList)

/-- The string at the end of a source that is left open, from its quote on. -/
def openTail (source : String) : List Char := textOf .openString (pieces source.toList)

/-- `Blanked cs ds`: the second text is the first one with some characters made spaces, line ends kept. -/
inductive Blanked : List Char → List Char → Prop where
  | nil : Blanked [] []
  | kept {c : Char} {cs ds : List Char} : Blanked cs ds → Blanked (c :: cs) (c :: ds)
  | space {c : Char} {cs ds : List Char} : c ≠ '\n' → Blanked cs ds → Blanked (c :: cs) (' ' :: ds)

/-! ## Texts with spaces in them -/

theorem Blanked.refl : ∀ cs : List Char, Blanked cs cs
  | [] => .nil
  | _ :: cs => .kept (Blanked.refl cs)

theorem Blanked.append {cs ds cs' ds' : List Char} (h : Blanked cs ds) (h' : Blanked cs' ds') :
    Blanked (cs ++ cs') (ds ++ ds') := by
  induction h with
  | nil => exact h'
  | kept _ ih => exact .kept ih
  | space hc _ ih => exact .space hc ih

theorem Blanked.lineAfter_eq {cs ds : List Char} (h : Blanked cs ds) : lineAfter ds = lineAfter cs := by
  have hcount : ds.count '\n' = cs.count '\n' := by
    induction h with
    | nil => rfl
    | kept _ ih => rw [List.count_cons, List.count_cons, ih]
    | space hc _ ih => rw [List.count_cons_of_ne (by decide), List.count_cons_of_ne hc, ih]
  rw [lineAfter, lineAfter, hcount]

/-- Text without blanks is where it was. -/
theorem Blanked.prefix_of_free {cs ds text : List Char} (h : Blanked cs ds) (hpre : text <+: ds)
    (hfree : ∀ d ∈ text, isBlank d = false) : text <+: cs := by
  induction h generalizing text with
  | nil => exact hpre
  | @kept c cs ds _ ih =>
      cases text with
      | nil => exact List.nil_prefix
      | cons d text =>
          obtain ⟨rfl, hpre'⟩ := List.cons_prefix_cons.mp hpre
          have hrest := ih hpre' fun e he => hfree e (List.mem_cons_of_mem _ he)
          exact List.cons_prefix_cons.mpr ⟨rfl, hrest⟩
  | space _ _ ih =>
      cases text with
      | nil => exact List.nil_prefix
      | cons d text =>
          obtain ⟨rfl, -⟩ := List.cons_prefix_cons.mp hpre
          exact nomatch hfree ' ' (List.mem_cons_self ..)

/-- What is left of a line ends where it did. -/
theorem Blanked.line_end {after after' : List Char} (h : Blanked after after')
    (hend : after = [] ∨ ∃ further, after = '\n' :: further) :
    after' = [] ∨ ∃ further, after' = '\n' :: further := by
  rcases hend with rfl | ⟨further, rfl⟩
  · cases h
    exact .inl rfl
  · cases h with
    | kept => exact .inr ⟨_, rfl⟩
    | space hc => exact absurd rfl hc

theorem blanked_of_lines : ∀ cs : List Char, Blanked cs (cs.map fun c => if c = '\n' then c else ' ')
  | [] => .nil
  | c :: cs => by
      rw [List.map_cons]
      split
      · exact .kept (blanked_of_lines cs)
      · next hc => exact .space hc (blanked_of_lines cs)

theorem filler_of_blanks : ∀ {cs : List Char}, (∀ c ∈ cs, isBlank c = true) → Filler cs
  | [], _ => .nil
  | c :: _, h =>
      .blank (h c (List.mem_cons_self ..)) (filler_of_blanks fun d hd => h d (List.mem_cons_of_mem _ hd))

/-! ## Reading on -/

section

variable {before before' text after after' : List Char}

/-- A token stays the longest one. -/
theorem Longest.of_blanked {kind : Token.Kind} (h : Longest text (text ++ after) kind)
    (hafter : Blanked after after') : Longest text (text ++ after') kind := by
  have hsource : Blanked (text ++ after) (text ++ after') := (Blanked.refl text).append hafter
  exact h.forms.longest fun hforms hpre hfree => h.longest hforms (hsource.prefix_of_free hpre hfree)

/-- Spaces further on make no difference to what is no token. -/
theorem Yields.of_blanked (h : Yields before text after none) (hafter : Blanked after after') :
    Yields before' text after' none := by
  cases h with
  | blank hc => exact .blank hc
  | comment hline hend => exact .comment hline (hafter.line_end hend)

/-- Spaces further on make no difference to a token. -/
theorem Yields.token_of_blanked {t : Token}
    (h : Yields before text after (some (.token t)))
    (hbefore : Blanked before before') (hafter : Blanked after after') :
    Yields before' text after' (some (.token t)) := by
  cases h with
  | token hmunch hcomment =>
      have hsource : Blanked (text ++ after) (text ++ after') := (Blanked.refl text).append hafter
      have hline := (hbefore.append (.refl text)).lineAfter_eq
      have hcomment' : ¬ ['/', '/'] <+: text ++ after' := fun hslashes =>
        hcomment (hsource.prefix_of_free hslashes (by simp [isBlank]))
      rw [← hline]
      exact .token (hmunch.of_blanked hafter) hcomment'

end

theorem Yields.stray_text {before text after : List Char} {line : Nat} {place : Place}
    (h : Yields before text after (some (.fault ⟨line, place, .lexical .unexpectedCharacter⟩))) :
    ∃ c, text = [c] ∧ isBlank c = false := by
  cases h with
  | strayCharacter hc => exact ⟨_, rfl, hc⟩

theorem Yields.openString_after {before text after : List Char} {line : Nat} {place : Place}
    (h : Yields before text after (some (.fault ⟨line, place, .lexical .unterminatedString⟩))) :
    after = [] := by
  cases h
  rfl

section

variable {p : Piece} {before after : List Char}
  (hfirst : Yields before p.text after (p.item? (lineAfter (before ++ p.text))))
include hfirst

theorem Yields.piece_blanked : Blanked p.text p.blanked := by
  obtain ⟨kind, text⟩ := p
  cases kind with
  | strayCharacter =>
      obtain ⟨c, rfl, hc⟩ := hfirst.stray_text
      refine .space ?_ .nil
      rintro rfl
      exact nomatch hc
  | openString => exact blanked_of_lines text
  | _ => exact .refl text

/-- One piece is read as it was, or skipped if it is none. -/
theorem Yields.partitions_blanked {before' after' : List Char} {read : List Item}
    (hbefore : Blanked before before') (hafter : Blanked after after')
    (hrest : Partitions (before' ++ p.blanked) after' read) :
    Partitions before' (p.blanked ++ after')
      ((p.token? (lineAfter (before ++ p.text))).toList.map .token ++ read) := by
  obtain ⟨kind, text⟩ := p
  cases kind with
  | blank => exact .next (Yields.of_blanked hfirst hafter) hrest
  | comment => exact .next (Yields.of_blanked hfirst hafter) hrest
  | token kind => exact .next (Yields.token_of_blanked hfirst hbefore hafter) hrest
  | strayCharacter =>
      have hspaces : ∀ d ∈ text.map fun _ => ' ', isBlank d = true := by simp [isBlank]
      exact (filler_of_blanks hspaces).partitions hrest
  | openString =>
      have hspaces : ∀ d ∈ text.map fun c => if c = '\n' then c else ' ', isBlank d = true := by
        intro d hd
        obtain ⟨c, -, rfl⟩ := List.mem_map.mp hd
        split
        · next hc => rw [hc]; rfl
        · rfl
      exact (filler_of_blanks hspaces).partitions hrest

end

theorem blanked_pieces (cs : List Char) : Blanked cs ((pieces cs).flatMap Piece.blanked) := by
  fun_induction pieces cs with
  | case1 => exact .nil
  | case2 c cs ih =>
      have hall := (firstPiece_yields [] c cs).piece_blanked.append ih
      rwa [firstPiece_append] at hall

/-- **What is no token may as well be blank.** -/
theorem partitions_blanked (cs : List Char) : ∀ {before before' : List Char}, Blanked before before' →
    Partitions before' ((pieces cs).flatMap Piece.blanked)
      ((tokensFrom (lineAfter before) (pieces cs)).map .token) := by
  fun_induction pieces cs with
  | case1 => exact fun _ => .done
  | case2 c cs ih =>
      intro before before' hbefore
      have hfirst := firstPiece_yields before c cs
      have hrest := ih (hbefore.append hfirst.piece_blanked)
      rw [tokensFrom, lastLine_eq, List.map_append, List.flatMap_cons]
      exact hfirst.partitions_blanked hbefore (blanked_pieces _) hrest

/-! ## What is reported -/

/-- There is one fault for each character that starts no token, and one more for the open string. -/
theorem faultsFrom_causes (cs : List Char) : ∀ line : Nat,
    (faultsFrom line (pieces cs)).map Diagnostic.cause
      = (textOf .strayCharacter (pieces cs)).map (fun _ => .lexical .unexpectedCharacter) ++
        (if textOf .openString (pieces cs) = [] then [] else [.lexical .unterminatedString]) := by
  fun_induction pieces cs with
  | case1 => exact fun _ => rfl
  | case2 c cs ih =>
      intro line
      have hfirst := firstPiece_yields [] c cs
      have hne := firstPiece_text_ne_nil c cs
      have ih := ih ((firstPiece c cs).1.lastLine line)
      generalize firstPiece c cs = first at hfirst hne ih
      obtain ⟨⟨kind, text⟩, after⟩ := first
      rw [faultsFrom, List.map_append, ih]
      cases kind with
      | strayCharacter =>
          obtain ⟨c, rfl, -⟩ := hfirst.stray_text
          rfl
      | openString =>
          obtain rfl := hfirst.openString_after
          rw [pieces_nil]
          have htext : textOf .openString (⟨.openString, text⟩ :: []) = text := List.append_nil text
          rw [htext, if_neg hne]
          rfl
      | _ => rfl

/-- A string that is left open goes on to the end. -/
theorem openString_suffix (cs : List Char) : textOf .openString (pieces cs) <:+ cs := by
  fun_induction pieces cs with
  | case1 => exact List.suffix_rfl
  | case2 c cs ih =>
      have hfirst := firstPiece_yields [] c cs
      have hcut := firstPiece_append c cs
      generalize firstPiece c cs = first at hfirst hcut ih
      obtain ⟨⟨kind, text⟩, after⟩ := first
      rw [← hcut]
      cases kind with
      | openString =>
          obtain rfl := hfirst.openString_after
          rw [pieces_nil]
          exact List.suffix_rfl
      | _ => exact ih.trans (List.suffix_append ..)

theorem toList_blanked (source : String) : Blanked source.toList (blanked source).toList := by
  rw [blanked, String.toList_ofList]
  exact blanked_pieces source.toList

/-- **Lexical faults are isolated.** The tokens of a source are those that it has when there are spaces in
place of what is reported, and then there is nothing to report. All other characters and all line ends stay
where they are. Each character that starts no token is reported once. A string that is left open takes up
the rest of the source and is reported last. -/
theorem lexical_faults_isolated (source : String) :
    Blanked source.toList (blanked source).toList ∧
    faults (blanked source) = [] ∧ tokens (blanked source) = tokens source ∧
    openTail source <:+ source.toList ∧
    (faults source).map Diagnostic.cause
      = (strayCharacters source).map (fun _ => .lexical .unexpectedCharacter) ++
        (if openTail source = [] then [] else [.lexical .unterminatedString]) := by
  have hread : Partitions [] (blanked source).toList ((body source).map .token) := by
    rw [blanked, String.toList_ofList]
    exact partitions_blanked source.toList .nil
  have hstop : stop source = ⟨.eof, "", lineAfter source.toList⟩ := by
    rw [stop, endLine_eq, flatMap_text_pieces, lineAfter]
  obtain ⟨hfaults, htokens⟩ := hread.only_tokens
  rw [(toList_blanked source).lineAfter_eq, ← hstop, ← tokens_eq] at htokens
  refine ⟨toList_blanked source, hfaults, htokens, openString_suffix source.toList, ?_⟩
  rw [faults_eq]
  exact faultsFrom_causes source.toList 1

example : blanked "a@/#/b \"c\n/" = "a / /b   \n " := by
  cbv

end Lox.Source
