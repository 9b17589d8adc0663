import Lox.Source
import Lox.Proofs.Renaming

/-!
# Sources, line by line

No piece of a source runs over the end of a line, but for strings. So where a source has no string
that is left open, what is put on further lines after it is cut into pieces as if it stood alone,
and its tokens are those that it has alone, only on later lines.
-/

namespace Lox.Source

/-! ## Tokens and faults of pieces -/

/-- The token that a piece is, if it is one. -/
def Piece.token? (p : Piece) (line : Nat) : Option Token := (p.item? line).bind Item.token?

/-- The fault that a piece is, if it is one. -/
def Piece.fault? (p : Piece) (line : Nat) : Option Diagnostic := (p.item? line).bind Item.fault?

/-- The tokens of pieces that start on `line`. -/
def tokensFrom (line : Nat) : List Piece → List Token
  | [] => []
  | p :: ps => (p.token? (p.lastLine line)).toList ++ tokensFrom (p.lastLine line) ps

/-- The faults of pieces that start on `line`. -/
def faultsFrom (line : Nat) : List Piece → List Diagnostic
  | [] => []
  | p :: ps => (p.fault? (p.lastLine line)).toList ++ faultsFrom (p.lastLine line) ps

/-- The line on which pieces end that start on `line`. -/
def endLine (line : Nat) : List Piece → Nat
  | [] => line
  | p :: ps => endLine (p.lastLine line) ps

theorem filterMap_toList {α β : Type} (f : α → Option β) (o : Option α) :
    o.toList.filterMap f = (o.bind f).toList := by
  cases o with
  | none => rfl
  | some a => cases h : f a <;> simp [h]

theorem tokens_itemsFrom : ∀ (line : Nat) (ps : List Piece),
    (itemsFrom line ps).filterMap Item.token?
      = tokensFrom line ps ++ [⟨.eof, "", endLine line ps⟩]
  | _, [] => rfl
  | line, p :: ps => by
      rw [itemsFrom, List.filterMap_append, filterMap_toList, tokens_itemsFrom (p.lastLine line) ps,
        tokensFrom, List.append_assoc]
      rfl

theorem faults_itemsFrom : ∀ (line : Nat) (ps : List Piece),
    (itemsFrom line ps).filterMap Item.fault? = faultsFrom line ps
  | _, [] => rfl
  | line, p :: ps => by
      rw [itemsFrom, List.filterMap_append, filterMap_toList, faults_itemsFrom (p.lastLine line) ps,
        faultsFrom]
      rfl

/-- The tokens of a source before its end token. -/
def body (source : String) : List Token := tokensFrom 1 (pieces source.toList)

/-- The end token of a source. -/
def stop (source : String) : Token := ⟨.eof, "", endLine 1 (pieces source.toList)⟩

theorem tokens_eq (source : String) : tokens source = body source ++ [stop source] :=
  tokens_itemsFrom 1 (pieces source.toList)

theorem faults_eq (source : String) : faults source = faultsFrom 1 (pieces source.toList) :=
  faults_itemsFrom 1 (pieces source.toList)

/-! ## Where a piece ends -/

section

variable {p : Char → Bool} {further : List Char}

theorem takeWhile_append_line (hp : p '\n' = false) : ∀ cs : List Char,
    (cs ++ '\n' :: further).takeWhile p = cs.takeWhile p
  | [] => by simp [hp]
  | c :: cs => by
      rw [List.cons_append, List.takeWhile_cons, List.takeWhile_cons, takeWhile_append_line hp cs]

theorem dropWhile_append_line (hp : p '\n' = false) : ∀ cs : List Char,
    (cs ++ '\n' :: further).dropWhile p = cs.dropWhile p ++ '\n' :: further
  | [] => by simp [hp]
  | c :: cs => by
      rw [List.cons_append, List.dropWhile_cons, List.dropWhile_cons, dropWhile_append_line hp cs]
      split <;> rfl

end

theorem takeWhile_append_of_dropWhile {p : Char → Bool} (further : List Char) {rest : List Char}
    {d : Char} :
    ∀ {cs : List Char}, cs.dropWhile p = d :: rest →
      (cs ++ further).takeWhile p = cs.takeWhile p ∧
        (cs ++ further).dropWhile p = d :: rest ++ further
  | [], h => nomatch h
  | c :: cs, h => by
      rw [List.dropWhile_cons] at h
      rw [List.cons_append, List.takeWhile_cons, List.takeWhile_cons, List.dropWhile_cons]
      by_cases hc : p c = true
      · rw [if_pos hc] at h
        obtain ⟨htake, hdrop⟩ := takeWhile_append_of_dropWhile further h
        rw [if_pos hc, if_pos hc, if_pos hc, htake]
        exact ⟨rfl, hdrop⟩
      · rw [if_neg hc] at h
        rw [if_neg hc, if_neg hc, if_neg hc, ← h]
        exact ⟨rfl, rfl⟩

theorem wordKind_ne_eof (word : List Char) : wordKind word ≠ .eof := by
  unfold wordKind
  split <;> simp

/-- No piece is an end token. -/
theorem firstPiece_kind (c : Char) (cs : List Char) :
    (firstPiece c cs).1.kind ≠ .token .eof := by
  unfold firstPiece slashPiece stringPiece numberPiece
  repeat' split
  all_goals simp [wordKind_ne_eof]

section

variable (cs further : List Char)

theorem slashPiece_append_line : slashPiece (cs ++ '\n' :: further)
    = ((slashPiece cs).1, (slashPiece cs).2 ++ '\n' :: further) := by
  cases cs with
  | nil => rfl
  | cons c cs =>
      by_cases hc : c = '/'
      · subst hc
        rw [List.cons_append, slashPiece, slashPiece,
          takeWhile_append_line (p := fun c => c != '\n') rfl,
          dropWhile_append_line (p := fun c => c != '\n') rfl]
      · simp [slashPiece, hc]

theorem stringPiece_append_line (h : (stringPiece cs).1.kind ≠ .openString) :
    stringPiece (cs ++ '\n' :: further)
      = ((stringPiece cs).1, (stringPiece cs).2 ++ '\n' :: further) := by
  cases hdrop : cs.dropWhile (fun c => c != '"') with
  | nil => simp [stringPiece, hdrop] at h
  | cons quote rest =>
      obtain ⟨htake', hdrop'⟩ := takeWhile_append_of_dropWhile ('\n' :: further) hdrop
      simp [stringPiece, hdrop, htake', hdrop']

theorem numberPiece_append_line (c : Char) : numberPiece c (cs ++ '\n' :: further)
    = ((numberPiece c cs).1, (numberPiece c cs).2 ++ '\n' :: further) := by
  have hline : Char.isDigit '\n' = false := rfl
  unfold numberPiece
  rw [takeWhile_append_line hline, dropWhile_append_line hline]
  generalize cs.dropWhile Char.isDigit = rest
  cases rest with
  | nil => rfl
  | cons d rest =>
      by_cases hd : d = '.'
      · subst hd
        cases rest with
        | nil => rfl
        | cons d rest =>
            simp only [List.cons_append]
            cases d.isDigit with
            | true => simp [takeWhile_append_line hline, dropWhile_append_line hline]
            | false => rfl
      · simp [hd]

/-- Further lines do not change the first piece, unless it is a string that is left open. -/
theorem firstPiece_append_line (c : Char) (h : (firstPiece c cs).1.kind ≠ .openString) :
    firstPiece c (cs ++ '\n' :: further)
      = ((firstPiece c cs).1, (firstPiece c cs).2 ++ '\n' :: further) := by
  have hline : isNameRest '\n' = false := rfl
  unfold firstPiece at h ⊢
  split
  · rfl
  · next hblank =>
    rw [if_neg hblank] at h
    split
    · exact slashPiece_append_line cs further
    · next hslash =>
      rw [if_neg hslash] at h
      split
      · next hquote =>
        rw [if_pos hquote] at h
        exact stringPiece_append_line cs further h
      · split
        · exact numberPiece_append_line cs further c
        · split
          · simp only [takeWhile_append_line hline, dropWhile_append_line hline]
          · cases symbolOf? c with
            | some s => rfl
            | none =>
                cases extensibleSymbolOf? c with
                | none => rfl
                | some s =>
                    cases cs with
                    | nil => rfl
                    | cons d cs =>
                        by_cases hd : d = '='
                        · subst hd; rfl
                        · simp [hd]

end

/-- **Further lines are cut into pieces as if they stood alone.** -/
theorem pieces_append_line (further : List Char) : ∀ cs : List Char,
    (∀ p ∈ pieces cs, p.kind ≠ .openString) →
      pieces (cs ++ '\n' :: further) = pieces cs ++ ⟨.blank, ['\n']⟩ :: pieces further := by
  intro cs
  fun_induction pieces cs with
  | case1 =>
      intro _
      rw [List.nil_append, pieces]
      rfl
  | case2 c cs ih =>
      intro h
      have hfirst := firstPiece_append_line cs further c (h _ (List.mem_cons_self ..))
      rw [List.cons_append, pieces, hfirst]
      exact congrArg _ (ih fun p hp => h p (List.mem_cons_of_mem _ hp))

/-! ## Tokens on later lines -/

theorem tokensFrom_append (line : Nat) (ps ps' : List Piece) :
    tokensFrom line (ps ++ ps') = tokensFrom line ps ++ tokensFrom (endLine line ps) ps' := by
  induction ps generalizing line with
  | nil => rfl
  | cons p ps ih => rw [List.cons_append, tokensFrom, ih, tokensFrom, List.append_assoc, endLine]

theorem faultsFrom_append (line : Nat) (ps ps' : List Piece) :
    faultsFrom line (ps ++ ps') = faultsFrom line ps ++ faultsFrom (endLine line ps) ps' := by
  induction ps generalizing line with
  | nil => rfl
  | cons p ps ih => rw [List.cons_append, faultsFrom, ih, faultsFrom, List.append_assoc, endLine]

theorem lastLine_add (p : Piece) (line n : Nat) : p.lastLine (line + n) = p.lastLine line + n := by
  unfold Piece.lastLine
  omega

theorem endLine_eq (line : Nat) (ps : List Piece) :
    endLine line ps = line + (ps.flatMap Piece.text).count '\n' := by
  induction ps generalizing line with
  | nil => rfl
  | cons p ps ih =>
      rw [endLine, ih, List.flatMap_cons, List.count_append, Piece.lastLine, Nat.add_assoc]

/-- Pieces that start on a later line are tokens on later lines. -/
theorem tokensFrom_add (n : Nat) (line : Nat) (ps : List Piece) :
    tokensFrom (line + n) ps = (tokensFrom line ps).map (Token.renamed (.moving (· + n))) := by
  induction ps generalizing line with
  | nil => rfl
  | cons p ps ih =>
      rw [tokensFrom, lastLine_add, ih, tokensFrom, List.map_append]
      congr 1
      unfold Piece.token? Piece.item?
      cases p.kind <;> rfl

theorem faultsFrom_add (n : Nat) (line : Nat) (ps : List Piece) :
    faultsFrom (line + n) ps = (faultsFrom line ps).map fun d => { d with line := d.line + n } := by
  induction ps generalizing line with
  | nil => rfl
  | cons p ps ih =>
      rw [faultsFrom, lastLine_add, ih, faultsFrom, List.map_append]
      congr 1
      unfold Piece.fault? Piece.item?
      cases p.kind <;> rfl

/-! ## A source after another one -/

/-- The number of lines of a source, where the last one may be empty. -/
def lineCount (source : String) : Nat := source.toList.count '\n' + 1

def blankLines (n : Nat) : String := String.ofList (List.replicate n '\n')

theorem pieces_nil : pieces [] = [] := by rw [pieces]

theorem pieces_replicate_line (cs : List Char) : ∀ n : Nat,
    pieces (List.replicate n '\n' ++ cs) = List.replicate n ⟨.blank, ['\n']⟩ ++ pieces cs := by
  intro n
  induction n with
  | zero => rfl
  | succ n ih =>
      have hline := pieces_append_line (List.replicate n '\n' ++ cs) [] (by simp [pieces_nil])
      rw [pieces_nil, List.nil_append] at hline
      rw [List.replicate_succ, List.cons_append, hline, ih]
      rfl

theorem tokensFrom_replicate_line (line : Nat) (ps : List Piece) : ∀ n : Nat,
    tokensFrom line (List.replicate n ⟨.blank, ['\n']⟩ ++ ps) = tokensFrom (line + n) ps ∧
      faultsFrom line (List.replicate n ⟨.blank, ['\n']⟩ ++ ps) = faultsFrom (line + n) ps ∧
      endLine line (List.replicate n ⟨.blank, ['\n']⟩ ++ ps) = endLine (line + n) ps := by
  intro n
  induction n generalizing line with
  | zero => exact ⟨rfl, rfl, rfl⟩
  | succ n ih =>
      have ih := ih (line + 1)
      rw [show line + 1 + n = line + (n + 1) by omega] at ih
      exact ih

section

variable (source : String) (n : Nat)

theorem toList_blankLines_append : (blankLines n ++ source).toList
    = List.replicate n '\n' ++ source.toList := by
  rw [String.toList_append, blankLines, String.toList_ofList]

theorem body_blankLines : body (blankLines n ++ source)
    = (body source).map (Token.renamed (.moving (· + n))) := by
  rw [body, toList_blankLines_append, pieces_replicate_line,
    (tokensFrom_replicate_line 1 _ n).1, tokensFrom_add, body]

theorem stop_blankLines : stop (blankLines n ++ source)
    = (stop source).renamed (.moving (· + n)) := by
  rw [stop, toList_blankLines_append, pieces_replicate_line,
    (tokensFrom_replicate_line 1 _ n).2.2, endLine_eq, stop, endLine_eq, Token.renamed]
  simp only [Renaming.moving, Token.mk.injEq, true_and]
  omega

/-- After blank lines all tokens stand on later lines. -/
theorem tokens_blankLines : tokens (blankLines n ++ source)
    = (tokens source).map (Token.renamed (.moving (· + n))) := by
  rw [tokens_eq, body_blankLines, stop_blankLines, tokens_eq, List.map_append, List.map_singleton]

theorem faults_blankLines : faults (blankLines n ++ source)
    = (faults source).map fun d => { d with line := d.line + n } := by
  rw [faults_eq, toList_blankLines_append, pieces_replicate_line,
    (tokensFrom_replicate_line 1 _ n).2.1, faultsFrom_add, faults_eq]

end

theorem not_openString_of_faultsFrom : ∀ {line : Nat} {ps : List Piece},
    faultsFrom line ps = [] → ∀ p ∈ ps, p.kind ≠ .openString
  | line, p :: ps, h, p', hp' => by
      obtain ⟨hfirst, hrest⟩ := List.append_eq_nil_iff.mp h
      rcases List.mem_cons.mp hp' with rfl | hp'
      · intro hkind
        simp [Piece.fault?, Piece.item?, hkind, Item.fault?] at hfirst
      · exact not_openString_of_faultsFrom hrest p' hp'

/-- The line after the last one of a source. -/
theorem lastLine_lineCount (source : String) :
    Piece.lastLine ⟨.blank, ['\n']⟩ (endLine 1 (pieces source.toList)) = 1 + lineCount source := by
  rw [endLine_eq, flatMap_text_pieces]
  exact Nat.add_assoc 1 _ 1

section

variable {source : String} (h : faults source = []) (source' : String)
include h

theorem pieces_append : pieces (source ++ "\n" ++ source').toList
    = pieces source.toList ++ ⟨.blank, ['\n']⟩ :: pieces source'.toList := by
  rw [faults_eq] at h
  rw [String.toList_append, String.toList_append, List.append_assoc]
  exact pieces_append_line source'.toList source.toList (not_openString_of_faultsFrom h)

/-- What follows a source without faults, from the next line on, is read as if only blank lines
stood before it. -/
theorem body_append : body (source ++ "\n" ++ source')
    = body source ++ body (blankLines (lineCount source) ++ source') := by
  rw [body_blankLines, body, pieces_append h, tokensFrom_append, tokensFrom, lastLine_lineCount,
    tokensFrom_add]
  rfl

theorem faults_append : faults (source ++ "\n" ++ source')
    = faults (blankLines (lineCount source) ++ source') := by
  rw [faults_blankLines, faults_eq, pieces_append h, faultsFrom_append, faultsFrom,
    lastLine_lineCount, faultsFrom_add, ← faults_eq, h, faults_eq]
  rfl

end

theorem le_endLine (line : Nat) (ps : List Piece) : line ≤ endLine line ps := by
  rw [endLine_eq]
  exact Nat.le_add_right line _

theorem Piece.of_token? {p : Piece} {line : Nat} {t : Token} (h : p.token? line = some t) :
    p.kind = .token t.kind ∧ t.lexeme = String.ofList p.text ∧ t.line = line := by
  unfold Piece.token? Piece.item? at h
  cases hkind : p.kind with
  | token kind =>
      simp only [hkind, Option.bind_some, Item.token?, Option.some.injEq] at h
      subst h
      exact ⟨rfl, rfl, rfl⟩
  | _ => simp [hkind, Item.token?] at h

/-- Every piece is the first one of some text. -/
theorem exists_firstPiece {cs : List Char} {p : Piece} (hp : p ∈ pieces cs) :
    ∃ c cs', p = (firstPiece c cs').1 := by
  fun_induction pieces cs with
  | case1 => exact absurd hp List.not_mem_nil
  | case2 c cs ih =>
      rcases List.mem_cons.mp hp with rfl | hp
      · exact ⟨c, cs, rfl⟩
      · exact ih hp

/-- A token is the text of one of the pieces, and lines are counted on. -/
theorem exists_piece : ∀ {line : Nat} {ps : List Piece} {t : Token}, t ∈ tokensFrom line ps →
    ∃ p ∈ ps, p.kind = .token t.kind ∧ t.lexeme = String.ofList p.text ∧ line ≤ t.line
  | _, [], _, ht => nomatch ht
  | line, p :: ps, t, ht => by
      have hle : line ≤ p.lastLine line := Nat.le_add_right line _
      rcases List.mem_append.mp ht with ht | ht
      · obtain ⟨hkind, hlexeme, hline⟩ := Piece.of_token? (Option.mem_toList.mp ht)
        exact ⟨p, List.mem_cons_self .., hkind, hlexeme, hline ▸ hle⟩
      · obtain ⟨p', hp', hkind, hlexeme, hline⟩ := exists_piece ht
        exact ⟨p', List.mem_cons_of_mem _ hp', hkind, hlexeme, Nat.le_trans hle hline⟩

/-- Lines are counted from 1. -/
theorem line_pos (source : String) : ∀ t ∈ tokens source, 1 ≤ t.line := by
  intro t ht
  rw [tokens_eq] at ht
  rcases List.mem_append.mp ht with ht | ht
  · obtain ⟨p, -, -, -, hline⟩ := exists_piece ht
    exact hline
  · rw [List.mem_singleton.mp ht]
    exact le_endLine 1 _

/-! ## Only the last token is an end token -/

theorem body_kind (source : String) : ∀ t ∈ body source, t.kind ≠ .eof := by
  intro t ht hkind
  obtain ⟨p, hp, hpiece, -, -⟩ := exists_piece ht
  obtain ⟨c, cs, rfl⟩ := exists_firstPiece hp
  exact firstPiece_kind c cs (hpiece.trans (congrArg _ hkind))

end Lox.Source
