import Lox.Program.Parser
import Lox.Proofs.Numbering
import Lox.Proofs.Parsing
import Lox.Proofs.Renaming.Scoping
import Lox.Proofs.Source

/-!
# From a source to its addresses

A source is read into a tree, and the walk through the tree finds addresses. Both depend on the
number that reading starts with and on the lines that tokens stand on only as far as these show in
the tree, and all numbers that are used lie between the first one and the one that is left over.
-/

namespace Lox

namespace Source

/-- What is read from a source when numbers are given out from `k` on. -/
def read (source : String) (k : Nat) : Parser.Outcome (List Stmt) where
  result :=
    match (parseProgram (tokens source) k).result with
    | .ok P => if (faults source).isEmpty then .ok P else .error (faults source)
    | .error ds => .error (faults source ++ ds)
  nextId := (parseProgram (tokens source) k).nextId

/-- The tokens and the faults of `source'` are those of `source`, on other lines. -/
structure MovesTo (lines : Nat → Nat) (source source' : String) : Prop where
  tokens : tokens source' = (tokens source).map (Token.renamed (.moving lines))
  faults : faults source' = (faults source).map (Diagnostic.renamed (.moving lines))

theorem MovesTo.refl (source : String) : MovesTo id source source where
  tokens := (List.map_id _).symm
  faults := (List.map_id _).symm

variable {source source' : String} {k : Nat}

/-! ## Trees -/

theorem read_eq_ok {P : List Stmt} (h : (read source k).result = .ok P) :
    faults source = [] ∧ parseProgram (tokens source) k = ⟨.ok P, (read source k).nextId⟩ := by
  unfold read at h ⊢
  generalize parseProgram (tokens source) k = outcome at h ⊢
  obtain ⟨result, next⟩ := outcome
  cases result with
  | error ds => exact nomatch h
  | ok P' =>
      cases hfaults : faults source with
      | cons d ds => simp [hfaults] at h
      | nil =>
          simp only [hfaults, List.isEmpty_nil, if_true, Except.ok.injEq] at h
          rw [h]
          exact ⟨rfl, rfl⟩

/-- The tree that is read is the tree of a derivation. -/
theorem read_derives {P : List Stmt} (h : (read source k).result = .ok P) :
    Grammar.Program k (body source) P (read source k).nextId := by
  have hread := (read_eq_ok h).2
  rw [tokens_eq] at hread
  have hresult := congrArg Parser.Outcome.result hread
  have hderived := program_of_parseProgram (body_kind source) rfl hresult
  rwa [hread] at hderived

/-- The references of a tree that is read are numbered. -/
theorem read_numbered {P : List Stmt} (h : (read source k).result = .ok P) :
    Numbered k (read source k).nextId (Stmt.referencesAll P) :=
  (read_derives h).numbered

theorem parseProgram_moves (source : String) (k : Nat) (M : Parser.Move) : parseProgram
      ((tokens source).map (Token.renamed (.moving M.lines))) (k + M.offset)
    = (parseProgram (tokens source) k).moved M (List.map (Stmt.renamed M.toRenaming)) := by
  rw [tokens_eq]
  exact parseProgram_moved (body_kind source) rfl M k

/-- A source with its tokens on other lines, read with other numbers, is read as the renamed tree.
-/
theorem read_moved {lines : Nat → Nat} (h : MovesTo lines source source') (offset : Nat) :
    read source' (k + offset) = (read source k).moved
      ⟨offset, lines, Diagnostic.renamed (.moving lines), fun _ _ => rfl⟩
      (List.map (Stmt.renamed (.shift offset lines))) := by
  unfold read
  rw [h.tokens, h.faults, parseProgram_moves source k
    ⟨offset, lines, Diagnostic.renamed (.moving lines), fun _ _ => rfl⟩]
  cases hresult : (parseProgram (tokens source) k).result with
  | error ds => simp [Parser.Outcome.moved, hresult]
  | ok P =>
      cases hfaults : faults source with
      | nil =>
          simp only [Parser.Outcome.moved, hresult, List.map_nil, List.isEmpty_nil, if_true]
          rfl
      | cons d ds => simp [Parser.Outcome.moved, hresult]

/-- Numbers are used up even if nothing is read. -/
theorem le_read_nextId : k ≤ (read source k).nextId := by
  have h := congrArg Parser.Outcome.nextId (read_moved (k := 0) (.refl source) k)
  rw [Nat.zero_add] at h
  rw [h]
  exact Nat.le_add_left k _

/-- Renamings that do the same to the lines of a source and to the numbers that are used while it is
read do the same to the tree. -/
theorem read_agree {P : List Stmt} (h : (read source k).result = .ok P) {r r' : Renaming}
    (hlines : ∀ t ∈ tokens source, r.lines t.line = r'.lines t.line)
    (hids : ∀ i, k ≤ i → i < (read source k).nextId → r.ids i = r'.ids i) :
    P.map (Stmt.renamed r) = P.map (Stmt.renamed r') := by
  have hread := (read_eq_ok h).2
  -- reading with the tokens on their new lines shows the tree on its new lines
  have hmoved (lines : Nat → Nat) :
      (parseProgram ((tokens source).map (Token.renamed (.moving lines))) k).result
        = .ok (P.map (Stmt.renamed (.shift 0 lines))) := by
    have := parseProgram_moves source k
      ⟨0, lines, Diagnostic.renamed (.moving lines), fun _ _ => rfl⟩
    rw [hread] at this
    exact congrArg Parser.Outcome.result this
  have htokens : (tokens source).map (Token.renamed (.moving r.lines))
      = (tokens source).map (Token.renamed (.moving r'.lines)) :=
    List.map_congr_left fun t ht =>
      congrArg (Token.mk t.kind t.lexeme) (hlines t ht)
  have hshifted := hmoved r.lines
  rw [htokens, hmoved r'.lines] at hshifted
  have hsame := congrArg (List.map (Stmt.renamed ⟨r.ids, id⟩)) (Except.ok.inj hshifted)
  rw [List.map_map, List.map_map] at hsame
  have hcompose (lines : Nat → Nat) :
      Stmt.renamed ⟨r.ids, id⟩ ∘ Stmt.renamed (.shift 0 lines) = Stmt.renamed ⟨r.ids, lines⟩ :=
    funext fun s => s.renamed_renamed (.shift 0 lines) ⟨r.ids, id⟩
  rw [hcompose, hcompose] at hsame
  have hagree : Renaming.AgreeOn ⟨r.ids, r'.lines⟩ r' (Stmt.referencesAll P) :=
    (read_numbered h).agree rfl hids
  rw [← hsame, ← Stmt.renamedAll_eq_map, ← Stmt.renamedAll_eq_map]
  exact Stmt.renamedAll_congr P hagree

/-- A renaming that keeps the lines of a source and the numbers that are used while it is read keeps
the tree. -/
theorem read_keeps {P : List Stmt} (h : (read source k).result = .ok P) {r : Renaming}
    (hlines : ∀ t ∈ tokens source, r.lines t.line = t.line)
    (hids : ∀ i, k ≤ i → i < (read source k).nextId → r.ids i = i) :
    P.map (Stmt.renamed r) = P := by
  have hagree : P.map (Stmt.renamed r) = P.map (Stmt.renamed .none) :=
    read_agree h hlines hids
  rw [hagree, show Stmt.renamed .none = id from funext Stmt.renamed_none, List.map_id]

/-! ## Addresses -/

/-- Only references that were numbered while reading have addresses. -/
theorem found_numbered {P : List Stmt} (h : (read source k).result = .ok P) :
    ∀ entry ∈ (Scoping.ofProgram P).addresses, k ≤ entry.1 ∧ entry.1 < (read source k).nextId := by
  -- a renaming that keeps these numbers and no others keeps the addresses
  let r : Renaming := ⟨fun i => if k ≤ i ∧ i < (read source k).nextId then i else i + 1, id⟩
  have hkeeps : P.map (Stmt.renamed r) = P :=
    read_keeps h (fun _ _ => rfl) fun i hle hlt => if_pos ⟨hle, hlt⟩
  have hfound := congrArg Scoping.Findings.addresses (Scoping.ofProgram_renamed r P)
  rw [hkeeps] at hfound
  intro entry hentry
  obtain ⟨i, hi, rfl⟩ := List.getElem_of_mem hentry
  have hfixed := congrArg (·[i]?) hfound
  simp only [Scoping.Findings.renamed, List.getElem?_map, List.getElem?_eq_getElem hi,
    Option.map_some, Option.some.injEq] at hfixed
  have hid : (Scoping.ofProgram P).addresses[i].1 = r.ids (Scoping.ofProgram P).addresses[i].1 :=
    congrArg Prod.fst hfixed
  by_cases hrange : k ≤ (Scoping.ofProgram P).addresses[i].1 ∧
      (Scoping.ofProgram P).addresses[i].1 < (read source k).nextId
  · exact hrange
  · simp only [r, if_neg hrange] at hid
    omega

end Source

end Lox
