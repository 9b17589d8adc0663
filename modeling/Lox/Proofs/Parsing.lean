import Mathlib
import Lox.Proofs.Grammar.CompleteProgram
import Lox.Proofs.Renaming.Parser

/-!
# Reading programs

Tokens are read as a program exactly if the grammar derives them, and then as the tree of the
derivation. For all other tokens there is at least one fault, and faults of the parser are faults of
syntax.
-/

namespace Lox

open Grammar

namespace Parser

variable {α β : Type}

/-- What becomes of an input, by how reading it ends. -/
def outcome : EStateM.Result Diagnostic State α → Outcome α
  | .ok tree s => ⟨if s.faults.isEmpty then .ok tree else .error s.faults.toList, s.nextId⟩
  | .error d s => ⟨.error (s.faults.push d).toList, s.nextId⟩

/-- A moved outcome, with its tree changed by `f`. -/
def Outcome.moved (M : Move) (f : α → β) (o : Outcome α) : Outcome β where
  result :=
    match o.result with
    | .ok tree => .ok (f tree)
    | .error ds => .error (ds.map M.diagnostic)
  nextId := o.nextId + M.offset

theorem outcome_result (M : Move) (f : α → β) (r : EStateM.Result Diagnostic State α) :
    outcome (M.result f r) = (outcome r).moved M f := by
  cases r with
  | ok tree s =>
      obtain ⟨rest, line, id, faults⟩ := s
      by_cases h : faults = #[] <;> simp [Move.result, Move.state, outcome, Outcome.moved, h]
  | error d s => simp [Move.result, Move.state, outcome, Outcome.moved]

end Parser

/-- What is read from any tokens is derived from those before the first end token. -/
theorem program_of_tokens {tokens : List Token} {k next : Nat} {P : List Stmt}
    (h : parseProgram tokens k = ⟨.ok P, next⟩) :
    Program k (tokens.takeWhile (·.kind ≠ .eof)) P next := by
  let start : Parser.State := .ofTokens tokens k
  have hrun : parseProgram tokens k
      = Parser.outcome (Parser.program start.rest.length start) := rfl
  rw [hrun] at h
  cases hread : Parser.program start.rest.length start with
  | error d s => simp [hread, Parser.outcome] at h
  | ok Q s =>
      rw [hread, Parser.outcome, Parser.Outcome.mk.injEq] at h
      obtain ⟨hresult, rfl⟩ := h
      by_cases hno : s.faults = #[]
      · have hQ : Q = P := by simpa [hno] using hresult
        exact hQ ▸ Parser.program_derives hread hno
      · simp [hno] at hresult

section

variable {body : List Token} {stop : Token} (hbody : ∀ t ∈ body, t.kind ≠ .eof)
  (hstop : stop.kind = .eof)
include hbody hstop

/-- Reading starts with all tokens before the end token, and ends on its line. -/
theorem Parser.State.ofTokens_append (k : Nat) :
    State.ofTokens (body ++ [stop]) k = ⟨body, stop.line, k, #[]⟩ := by
  have htake : (body ++ [stop]).takeWhile (fun t => decide (t.kind ≠ .eof)) = body := by
    rw [List.takeWhile_append_of_pos fun t ht => decide_eq_true (hbody t ht)]
    simp [hstop]
  have hfind : (body ++ [stop]).find? (fun t => decide (t.kind = .eof)) = some stop := by
    rw [List.find?_append, List.find?_eq_none.mpr fun t ht => by simpa using hbody t ht]
    simp [hstop]
  unfold State.ofTokens
  rw [htake, hfind]

theorem parseProgram_append (k : Nat) : parseProgram (body ++ [stop]) k =
    Parser.outcome (Parser.program body.length ⟨body, stop.line, k, #[]⟩) := by
  unfold parseProgram Parser.run
  rw [Parser.State.ofTokens_append hbody hstop]
  rfl

/-- Moved tokens are read as the moved tree, or with the moved faults. -/
theorem parseProgram_moved (M : Parser.Move) (k : Nat) :
    parseProgram ((body ++ [stop]).map (Token.renamed M.toRenaming)) (k + M.offset)
      = (parseProgram (body ++ [stop]) k).moved M (List.map (Stmt.renamed M.toRenaming)) := by
  have hbody' : ∀ t ∈ body.map (Token.renamed M.toRenaming), t.kind ≠ .eof := by
    simpa using hbody
  have hstop' : (stop.renamed M.toRenaming).kind = .eof := hstop
  rw [List.map_append, List.map_singleton, parseProgram_append hbody hstop,
    parseProgram_append hbody' hstop', List.length_map, ← Parser.outcome_result]
  have hmoved := Parser.program_follows (M := M) body.length ⟨body, stop.line, k, #[]⟩
  simp only [Parser.Move.state, Array.map_empty] at hmoved
  exact congrArg Parser.outcome hmoved

/-- Every fault of the parser is a fault of syntax: a move that changes all the others, and nothing
else, changes nothing in what is read. -/
theorem faults_syntactic {k : Nat} {ds : List Diagnostic}
    (h : (parseProgram (body ++ [stop]) k).result = .error ds) :
    ∀ d ∈ ds, ∃ fault, d.cause = .syntactic fault := by
  let M : Parser.Move :=
    { offset := 0
      lines := id
      diagnostic := fun d =>
        match d.cause with
        | .syntactic _ => d
        | _ => { d with line := d.line + 1 }
      syntactic := fun _ _ => rfl }
  have hsame : (body ++ [stop]).map (Token.renamed M.toRenaming) = body ++ [stop] := by
    rw [show Token.renamed M.toRenaming = id from rfl, List.map_id]
  have hmoved := congrArg Parser.Outcome.result (parseProgram_moved hbody hstop M k)
  rw [hsame] at hmoved
  have hfixed : ds = ds.map M.diagnostic := by
    simpa [h, Parser.Outcome.moved, show k + M.offset = k from rfl] using hmoved
  intro d hd
  obtain ⟨i, hi, rfl⟩ := List.getElem_of_mem hd
  have hdi : M.diagnostic ds[i] = ds[i] := by
    have := congrArg (·[i]?) hfixed
    simpa [hi] using this.symm
  cases hcause : ds[i].cause with
  | syntactic fault => exact ⟨fault, rfl⟩
  | lexical fault =>
      have := congrArg Diagnostic.line hdi
      simp [M, hcause] at this
  | scoping fault =>
      have := congrArg Diagnostic.line hdi
      simp [M, hcause] at this

/-- What the parser makes of an input without an end token before its last token: the tree of the
derivation, or at least one fault. -/
theorem parseProgram_derives_or_faults (k : Nat) :
    (∃ P, (parseProgram (body ++ [stop]) k).result = .ok P ∧
      Program k body P (parseProgram (body ++ [stop]) k).nextId) ∨
    ∃ d ds, (parseProgram (body ++ [stop]) k).result = .error (d :: ds) := by
  rw [parseProgram_append hbody hstop]
  let start : Parser.State := ⟨body, stop.line, k, #[]⟩
  cases hread : Parser.program start.rest.length start with
  | ok P s =>
      by_cases hno : s.faults = #[]
      · refine .inl ⟨P, by simp [Parser.outcome, hno], ?_⟩
        exact Parser.program_derives hread hno
      · obtain ⟨d, ds, hds⟩ := List.exists_cons_of_ne_nil
          (fun h => hno (Array.toList_eq_nil_iff.mp h) : s.faults.toList ≠ [])
        exact .inr ⟨d, ds, by simp [Parser.outcome, hno, hds]⟩
  | error d s =>
      obtain ⟨d', ds, hds⟩ := List.exists_cons_of_ne_nil
        (by simp : (s.faults.push d).toList ≠ [])
      exact .inr ⟨d', ds, congrArg Except.error hds⟩

/-- What is read is derived. -/
theorem program_of_parseProgram {k : Nat} {P : List Stmt}
    (h : (parseProgram (body ++ [stop]) k).result = .ok P) :
    Program k body P (parseProgram (body ++ [stop]) k).nextId := by
  rcases parseProgram_derives_or_faults hbody hstop k with ⟨P', hP', hderived⟩ | ⟨d, ds, hds⟩
  · rw [h] at hP'
    cases hP'
    exact hderived
  · rw [h] at hds
    exact nomatch hds

/-- A derivation is what is read. -/
theorem parseProgram_of_program {k next : Nat} {P : List Stmt} (h : Program k body P next) :
    parseProgram (body ++ [stop]) k = ⟨.ok P, next⟩ := by
  rw [parseProgram_append hbody hstop, Parser.program_reads h stop.line #[]]
  rfl

/-- **The parser accepts the grammar and builds its tree.** Where no end token stands before the
last one, the tokens before it are read as `P` exactly if the grammar derives them with the tree
`P`, numbers of references included. If it derives them with no tree, there is at least one fault,
and all are faults of syntax. -/
theorem parseProgram_spec (k : Nat) :
    (∀ P next, parseProgram (body ++ [stop]) k = ⟨.ok P, next⟩ ↔ Program k body P next) ∧
    ((¬ ∃ P next, Program k body P next) →
      ∃ d ds, (parseProgram (body ++ [stop]) k).result = .error (d :: ds) ∧
        ∀ d' ∈ d :: ds, ∃ fault, d'.cause = .syntactic fault) := by
  refine ⟨fun P next => ⟨fun h => ?_, parseProgram_of_program hbody hstop⟩, fun hno => ?_⟩
  · rcases parseProgram_derives_or_faults hbody hstop k with ⟨P', hP', hderived⟩ | ⟨d, ds, hds⟩
    · rw [h] at hP' hderived
      cases hP'
      exact hderived
    · rw [h] at hds
      exact nomatch hds
  · rcases parseProgram_derives_or_faults hbody hstop k with ⟨P, -, hderived⟩ | ⟨d, ds, hds⟩
    · exact absurd ⟨P, _, hderived⟩ hno
    · exact ⟨d, ds, hds, faults_syntactic hbody hstop hds⟩

end

/-- The `else` of `if (a) if (b) c; else d;` belongs to the inner `if`. -/
theorem parseProgram_spec_danglingElse :
    let word (k : Keyword) : Token := ⟨.keyword k, k.spelling, 1⟩
    let symbol (s : Symbol) : Token := ⟨.symbol s, s.spelling, 1⟩
    let name (lexeme : String) : Token := ⟨.identifier, lexeme, 1⟩
    let use (id : Nat) (lexeme : String) : Expr := .ident ⟨id, name lexeme⟩
    Program 0
      [word .ifWord, symbol .leftParen, name "a", symbol .rightParen,
        word .ifWord, symbol .leftParen, name "b", symbol .rightParen,
        name "c", symbol .semicolon, word .elseWord, name "d", symbol .semicolon]
      [.conditional (use 0 "a")
        (.conditional (use 1 "b") (.expression (use 2 "c")) (some (.expression (use 3 "d")))) none]
      4 := by
  intro word symbol name use
  have hbody : ∀ t ∈ [word .ifWord, symbol .leftParen, name "a", symbol .rightParen,
      word .ifWord, symbol .leftParen, name "b", symbol .rightParen,
      name "c", symbol .semicolon, word .elseWord, name "d", symbol .semicolon],
      t.kind ≠ .eof := by
    simp [word, symbol, name]
  have hstop : (⟨.eof, "", 1⟩ : Token).kind = .eof := rfl
  refine ((parseProgram_spec hbody hstop 0).1 _ _).mp ?_
  cbv

end Lox
