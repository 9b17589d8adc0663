import Lox.Proofs.Recovery

/-!
# The place of the next token

Reading is a walk over the tokens. It starts at the first one and stops at the first end token, and if the
last token is no end token, then one is added. All readers are put together from those of single tokens, so
each state that a reading comes through is at a place between the two, and the token there is the one that is
looked at.

A state has only those tokens that are left. A parser that has all of them and an index needs a guard to stop
at the end, and has to stay in range. Where the index is the place of the state, both do the same.
-/

namespace Lox.Parser

variable {α β : Type}

/-! ## Places -/

/-- The tokens, with an end token behind them if the last one is none. -/
def completed (tokens : List Token) : List Token :=
  match tokens.getLast? with
  | some last => if last.kind = .eof then tokens else tokens ++ [⟨.eof, "", last.line⟩]
  | none => [⟨.eof, "", 1⟩]

/-- The place of the first end token. -/
def stop (tokens : List Token) : Nat := (completed tokens).findIdx (·.kind = .eof)

/-- The tokens that can be looked at. -/
def upToEnd (tokens : List Token) : List Token := (completed tokens).take (stop tokens + 1)

/-- The next token is at place `i`. -/
structure State.At (tokens : List Token) (i : Nat) (s : State) : Prop where
  le : i ≤ stop tokens
  rest : s.rest = ((completed tokens).take (stop tokens)).drop i
  endLine : (completed tokens)[stop tokens]?.map (·.line) = some s.endLine

/-- There is an end token, and it is found behind the tokens that are none. -/
theorem exists_completed (tokens : List Token) (k : Nat) : ∃ body t after,
    completed tokens = body ++ t :: after ∧ (∀ t' ∈ body, t'.kind ≠ .eof) ∧ t.kind = .eof ∧
      State.ofTokens tokens k = ⟨body, t.line, k, #[]⟩ := by
  by_cases hnone : ∀ t ∈ tokens, t.kind ≠ .eof
  · refine ⟨tokens, ⟨.eof, "", lastLine tokens⟩, [], ?_, hnone, rfl, ofTokens_of_none hnone k⟩
    unfold completed lastLine
    cases hlast : tokens.getLast? with
    | none => rw [List.getLast?_eq_none_iff.mp hlast, List.nil_append]
    | some last => exact if_neg (hnone last (List.mem_of_getLast? hlast))
  · obtain ⟨t, hfind⟩ : ∃ t, tokens.find? (fun t => decide (t.kind = .eof)) = some t := by
      refine Option.isSome_iff_exists.mp (List.find?_isSome.mpr ?_)
      simpa using hnone
    obtain ⟨ht, body, after, rfl, hbody⟩ := List.find?_eq_some_iff_append.mp hfind
    replace hbody : ∀ t' ∈ body, t'.kind ≠ .eof := fun t' ht' => by simpa using hbody t' ht'
    replace ht : t.kind = .eof := of_decide_eq_true ht
    have htake : (body ++ t :: after).takeWhile (fun t' => decide (t'.kind ≠ .eof)) = body := by
      rw [List.takeWhile_append_of_pos fun t' ht' => decide_eq_true (hbody t' ht')]
      simp [ht]
    have hstart : State.ofTokens (body ++ t :: after) k = ⟨body, t.line, k, #[]⟩ := by
      unfold State.ofTokens
      rw [htake, hfind]
    -- if a token is added, then it is added behind the end token that is there
    unfold completed
    cases hlast : (body ++ t :: after).getLast? with
    | none => simp at hlast
    | some last =>
        dsimp only
        split
        · exact ⟨body, t, after, rfl, hbody, ht, hstart⟩
        · exact ⟨body, t, after ++ [⟨.eof, "", last.line⟩], by simp, hbody, ht, hstart⟩

theorem stop_eq {tokens body after : List Token} {t : Token}
    (h : completed tokens = body ++ t :: after) (hbody : ∀ t' ∈ body, t'.kind ≠ .eof)
    (ht : t.kind = .eof) : stop tokens = body.length := by
  have hnone : body.findIdx (fun t' => decide (t'.kind = .eof)) = body.length :=
    List.findIdx_eq_length.mpr fun t' ht' => decide_eq_false (hbody t' ht')
  rw [stop, h, List.findIdx_append, hnone, if_neg (Nat.lt_irrefl _)]
  simp [List.findIdx_cons, ht]

/-- The tokens in front of the first end token are none. -/
theorem ne_eof_of_mem_take {tokens : List Token} {t : Token}
    (h : t ∈ (completed tokens).take (stop tokens)) : t.kind ≠ .eof := by
  obtain ⟨body, e, after, hall, hbody, he, -⟩ := exists_completed tokens 0
  rw [stop_eq hall hbody he, hall, List.take_left] at h
  exact hbody t h

/-- Reading starts at the first token. -/
theorem State.at_start (tokens : List Token) (k : Nat) : (State.ofTokens tokens k).At tokens 0 := by
  obtain ⟨body, t, after, h, hbody, ht, hstart⟩ := exists_completed tokens k
  have hstop := stop_eq h hbody ht
  rw [hstart]
  refine ⟨Nat.zero_le _, ?_, ?_⟩
  · rw [h, hstop, List.take_left, List.drop_zero]
  · rw [h, hstop]
    simp

/-- What is behind the first end token is not read. -/
theorem ofTokens_of_upToEnd {tokens tokens' : List Token} (h : upToEnd tokens = upToEnd tokens')
    (k : Nat) : State.ofTokens tokens k = State.ofTokens tokens' k := by
  have hupTo : ∀ tokens, ∃ body t, upToEnd tokens = body ++ [t] ∧
      State.ofTokens tokens k = ⟨body, t.line, k, #[]⟩ := by
    intro tokens
    obtain ⟨body, t, after, h, hbody, ht, hstart⟩ := exists_completed tokens k
    refine ⟨body, t, ?_, hstart⟩
    rw [upToEnd, stop_eq h hbody ht, h]
    simp [List.take_append]
  obtain ⟨body, t, hbody, hstart⟩ := hupTo tokens
  obtain ⟨body', t', hbody', hstart'⟩ := hupTo tokens'
  rw [hbody, hbody'] at h
  obtain ⟨rfl, ht⟩ := List.append_inj' h rfl
  rw [hstart, hstart', (List.singleton_inj.mp ht : t = t')]

namespace State.At

variable {tokens : List Token} {i : Nat} {s s' : State}

/-- The token that is looked at is the one at the place. Only the text of an end token is not looked at. -/
theorem peek (h : s.At tokens i) : ∃ t, (completed tokens)[i]? = some t ∧
    t.kind = s.peek.kind ∧ t.line = s.peek.line ∧ (t.kind ≠ .eof → t = s.peek) := by
  obtain ⟨body, t, after, hall, hbody, ht, -⟩ := exists_completed tokens 0
  obtain ⟨hle, hrest, hline⟩ := h
  rw [stop_eq hall hbody ht] at hle
  rw [stop_eq hall hbody ht, hall, List.take_left] at hrest
  have hend : (body ++ t :: after)[body.length]? = some t := by simp
  rw [stop_eq hall hbody ht, hall, hend] at hline
  rw [hall]
  rcases Nat.lt_or_eq_of_le hle with hlt | rfl
  · refine ⟨body[i], by rw [List.getElem?_append_left hlt, List.getElem?_eq_getElem hlt], ?_⟩
    have hpeek : s.peek = body[i] := by
      rw [State.peek, hrest, List.drop_eq_getElem_cons hlt]
    rw [hpeek]
    exact ⟨rfl, rfl, fun _ => rfl⟩
  · have hpeek : s.peek = ⟨.eof, "", s.endLine⟩ := by
      rw [State.peek, hrest, List.drop_length]
    rw [hpeek]
    exact ⟨t, hend, ht, Option.some.inj hline, fun hne => absurd ht hne⟩

/-- Readers that go forward move the place, at most to the end. -/
theorem later (h : s.At tokens i) (hs : s.Precedes s') : ∃ j, i ≤ j ∧ s'.At tokens j := by
  obtain ⟨hle, hrest, hline⟩ := h
  have hlength : ((completed tokens).take (stop tokens)).length = stop tokens :=
    List.length_take_of_le List.findIdx_le_length
  obtain ⟨before, hbefore⟩ := hs.rest
  have hcount : before.length + s'.rest.length = stop tokens - i := by
    rw [← List.length_append, hbefore, hrest, List.length_drop, hlength]
  refine ⟨i + before.length, Nat.le_add_right _ _, by omega, ?_, ?_⟩
  · rw [← List.drop_drop, ← hrest, ← hbefore, List.drop_left]
  · rw [hs.endLine, hline]

/-- Either the end token is next, or another one that is read next. -/
theorem cases (h : s.At tokens i) :
    (s.rest = [] ∧ ∃ t, (completed tokens)[i]? = some t ∧ t.kind = .eof) ∨
      ∃ t ts, s.rest = t :: ts ∧ (completed tokens)[i]? = some t ∧ t.kind ≠ .eof ∧
        State.At tokens (i + 1) { s with rest := ts } := by
  obtain ⟨t, ht, hkind, -, hsame⟩ := h.peek
  cases hrest : s.rest with
  | nil =>
      refine .inl ⟨rfl, t, ht, ?_⟩
      rw [hkind, State.peek, hrest]
  | cons t' ts =>
      obtain ⟨hle, hdrop, hline⟩ := h
      rw [hrest] at hdrop
      have hpeek : s.peek = t' := by rw [State.peek, hrest]
      have hne : t'.kind ≠ .eof :=
        ne_eof_of_mem_take (List.mem_of_mem_drop (hdrop ▸ List.mem_cons_self ..))
      rw [hpeek] at hkind hsame
      obtain rfl : t = t' := hsame (hkind ▸ hne)
      have hlt : i < stop tokens := by
        have hlength := congrArg List.length hdrop
        simp only [List.length_cons, List.length_drop, List.length_take] at hlength
        omega
      refine .inr ⟨t, ts, rfl, ht, hne, hlt, ?_, hline⟩
      rw [← List.drop_drop, ← hdrop, List.drop_one, List.tail_cons]

end State.At

/-! ## The cursor

A parser that keeps all of its tokens has an index into them. Whether the index is in range is to be shown, so
what is asked of a cursor here has no answer where it is not. -/

/-- The index of the next token, among the tokens with their end. -/
structure Cursor (tokens : List Token) where
  current : Nat

namespace Cursor

variable {tokens : List Token}

def start : Cursor tokens := ⟨0⟩

/-- The next token. -/
def peek? (c : Cursor tokens) : Option Token := (completed tokens)[c.current]?

/-- The token before the next one. At the start it is the next one itself. -/
def previous? (c : Cursor tokens) : Option Token := (completed tokens)[c.current - 1]?

def atEnd? (c : Cursor tokens) : Option Bool := c.peek?.map (·.kind = .eof)

/-- Goes on to the next token, unless the end is here. The token before the next one is the answer. -/
def advance? (c : Cursor tokens) : Option (Token × Cursor tokens) := do
  let c := if ← c.atEnd? then c else ⟨c.current + 1⟩
  return (← c.previous?, c)

/-- Goes on if the next token is of an accepted kind, and not the end. -/
def take? (c : Cursor tokens) (accepts : Token.Kind → Bool) :
    Option (Option Token × Cursor tokens) := do
  if ← c.atEnd? then return (none, c)
  if accepts (← c.peek?).kind then
    let (t, c) ← c.advance?
    return (some t, c)
  else return (none, c)

/-- Goes on to the start of a statement or past a semicolon, in fewer rounds than are given. -/
def skipToBoundary? : Nat → Cursor tokens → Option (Cursor tokens)
  | 0, _ => none
  | bound + 1, c => do
    if ← c.atEnd? then return c
    if (← c.previous?).kind = .symbol .semicolon || startsStatement (← c.peek?) then return c
    skipToBoundary? bound (← c.advance?).2

/-- Drops the next token and then the rest of its statement. There are no more rounds than tokens. -/
def synchronize? (c : Cursor tokens) : Option (Cursor tokens) := do
  skipToBoundary? (completed tokens).length (← c.advance?).2

/-- All that moves a cursor is going on. -/
def Leads : Cursor tokens → Cursor tokens → Prop :=
  Relation.ReflTransGen fun c c' => ∃ t, c.advance? = some (t, c')

/-- What a cursor and a state have in common: what is asked of the cursor is in range, the answers are those
that the state gives to a reader, and then they have come to the same place again. -/
structure Serves (c : Cursor tokens) (s : State) : Prop where
  place : s.At tokens c.current
  peek : ∃ t, c.peek? = some t ∧ t.kind = s.peek.kind ∧ t.line = s.peek.line ∧
    (t.kind ≠ .eof → t = s.peek)
  previous : ∃ t, c.previous? = some t
  atEnd : c.atEnd? = some s.rest.isEmpty
  advance : ∃ t c' s', c.advance? = some (t, c') ∧ skip s = .ok () s' ∧ s'.At tokens c'.current ∧
    (s.rest ≠ [] → t = s.peek ∧ c'.current = c.current + 1)
  take : ∀ accepts, ∃ found c' s', c.take? accepts = some (found, c') ∧
    Parser.take? accepts s = .ok found s' ∧ s'.At tokens c'.current
  synchronize : ∃ c', c.synchronize? = some c' ∧ s.synchronize.At tokens c'.current

variable {c : Cursor tokens} {s : State} {t : Token}

theorem atEnd?_eq (h : c.peek? = some t) : c.atEnd? = some (decide (t.kind = .eof)) := by
  rw [atEnd?, h, Option.map_some]

theorem advance?_of_ne (h : c.peek? = some t) (ht : t.kind ≠ .eof) :
    c.advance? = some (t, ⟨c.current + 1⟩) := by
  have hprevious : (⟨c.current + 1⟩ : Cursor tokens).previous? = some t := h
  rw [advance?, atEnd?_eq h, decide_eq_false ht]
  simp [hprevious]

theorem advance?_of_eof (h : c.peek? = some t) (ht : t.kind = .eof) {last : Token}
    (hlast : c.previous? = some last) : c.advance? = some (last, c) := by
  rw [advance?, atEnd?_eq h, decide_eq_true ht]
  simp [hlast]

/-- There is an end token, and it is in range. -/
theorem stop_lt (tokens : List Token) : stop tokens < (completed tokens).length := by
  obtain ⟨body, t, after, hall, hbody, ht, -⟩ := exists_completed tokens 0
  rw [stop_eq hall hbody ht, hall, List.length_append, List.length_cons]
  omega

theorem exists_previous (h : c.current ≤ stop tokens) : ∃ last, c.previous? = some last := by
  have hlt : c.current - 1 < (completed tokens).length := by
    have := stop_lt tokens
    omega
  exact ⟨_, List.getElem?_eq_getElem hlt⟩

theorem skipToBoundary?_succ (bound : Nat) (h : c.peek? = some t) (ht : t.kind ≠ .eof) {last : Token}
    (hlast : c.previous? = some last) : skipToBoundary? (bound + 1) c =
      if last.kind = .symbol .semicolon || startsStatement t then some c
      else skipToBoundary? bound ⟨c.current + 1⟩ := by
  rw [skipToBoundary?, atEnd?_eq h, decide_eq_false ht, hlast, h, advance?_of_ne h ht]
  split <;> simp_all

/-- The rounds of the cursor are those of the state. -/
theorem exists_boundary {bound : Nat} {last : Token} (h : s.At tokens c.current)
    (hlast : c.previous? = some last) (hbound : s.rest.length < bound) :
    ∃ c', skipToBoundary? bound c = some c' ∧
      State.At tokens c'.current { s with rest := skipToBoundary last s.rest } := by
  induction bound generalizing c s last with
  | zero => exact absurd hbound (Nat.not_lt_zero _)
  | succ bound ih =>
      rcases h.cases with ⟨hrest, t, ht, hkind⟩ | ⟨t, ts, hrest, ht, hkind, hnext⟩
      · refine ⟨c, ?_, ?_⟩
        · rw [skipToBoundary?, atEnd?_eq ht, decide_eq_true hkind]
          rfl
        · rw [hrest, Parser.skipToBoundary, ← hrest]
          exact h
      · rw [skipToBoundary?_succ bound ht hkind hlast, hrest, Parser.skipToBoundary]
        split
        · refine ⟨c, rfl, ?_⟩
          rw [← hrest]
          exact h
        · rw [hrest, List.length_cons] at hbound
          exact ih (c := ⟨c.current + 1⟩) hnext ht (Nat.lt_of_succ_lt_succ hbound)

/-! ### Cursors and states -/

theorem atEnd?_of_at (h : s.At tokens c.current) : c.atEnd? = some s.rest.isEmpty := by
  rcases h.cases with ⟨hrest, t, ht, hkind⟩ | ⟨t, ts, hrest, ht, hkind, -⟩
  · rw [atEnd?_eq ht, decide_eq_true hkind, hrest, List.isEmpty_nil]
  · rw [atEnd?_eq ht, decide_eq_false hkind, hrest, List.isEmpty_cons]

theorem exists_advance (h : s.At tokens c.current) : ∃ t c' s', c.advance? = some (t, c') ∧
    skip s = .ok () s' ∧ s'.At tokens c'.current ∧
    (s.rest ≠ [] → t = s.peek ∧ c'.current = c.current + 1) := by
  rcases h.cases with ⟨hrest, t, ht, hkind⟩ | ⟨t, ts, hrest, ht, hkind, hnext⟩
  · -- at the end nothing moves
    obtain ⟨last, hlast⟩ := exists_previous h.le
    refine ⟨last, c, _, advance?_of_eof ht hkind hlast, rfl, ?_, fun hne => absurd hrest hne⟩
    rw [hrest, List.tail_nil, ← hrest]
    exact h
  · refine ⟨t, ⟨c.current + 1⟩, _, advance?_of_ne ht hkind, rfl, ?_, fun _ => ⟨?_, rfl⟩⟩
    · rw [hrest]
      exact hnext
    · rw [State.peek, hrest]

theorem exists_take (h : s.At tokens c.current) (accepts : Token.Kind → Bool) : ∃ found c' s',
    c.take? accepts = some (found, c') ∧ Parser.take? accepts s = .ok found s' ∧
      s'.At tokens c'.current := by
  have hatEnd := atEnd?_of_at h
  rcases h.cases with ⟨hrest, -⟩ | ⟨t, ts, hrest, ht, hkind, hnext⟩
  · refine ⟨none, c, s, ?_, ?_, h⟩
    · rw [take?, hatEnd, hrest]
      rfl
    · rw [Parser.take?, hrest]
  · have htake : c.take? accepts
        = if accepts t.kind then some (some t, ⟨c.current + 1⟩) else some (none, c) := by
      rw [take?, hatEnd, hrest, show c.peek? = some t from ht, advance?_of_ne ht hkind]
      split <;> simp_all
    rw [htake, Parser.take?, hrest]
    dsimp only
    split
    · exact ⟨_, _, _, rfl, rfl, hnext⟩
    · exact ⟨_, _, _, rfl, rfl, h⟩

theorem exists_synchronize (h : s.At tokens c.current) :
    ∃ c', c.synchronize? = some c' ∧ s.synchronize.At tokens c'.current := by
  obtain ⟨last, hlast⟩ := exists_previous h.le
  have hlength : s.rest.length < (completed tokens).length := by
    have hstop := stop_lt tokens
    rw [h.rest, List.length_drop, List.length_take]
    omega
  rcases h.cases with ⟨hrest, t, ht, hkind⟩ | ⟨t, ts, hrest, ht, hkind, hnext⟩
  · obtain ⟨c', hboundary, hplace⟩ := exists_boundary h hlast hlength
    rw [hrest, skipToBoundary] at hplace
    rw [State.synchronize, synchronize?, hrest, advance?_of_eof ht hkind hlast]
    exact ⟨c', hboundary, hplace⟩
  · -- the token at fault is dropped, and then it is the one before
    rw [hrest, List.length_cons] at hlength
    obtain ⟨c', hboundary, hplace⟩ :=
      exists_boundary (c := ⟨c.current + 1⟩) hnext ht (Nat.lt_of_succ_lt hlength)
    rw [State.synchronize, synchronize?, hrest, advance?_of_ne ht hkind]
    exact ⟨c', hboundary, hplace⟩

/-- A cursor serves each state that has come to its place. -/
theorem serves (h : s.At tokens c.current) : c.Serves s where
  place := h
  peek := h.peek
  previous := exists_previous h.le
  atEnd := atEnd?_of_at h
  advance := exists_advance h
  take := exists_take h
  synchronize := exists_synchronize h

/-- Reading can be at any place up to the first end token. -/
theorem exists_at (h : c.current ≤ stop tokens) : ∃ s : State, s.At tokens c.current :=
  ⟨{ State.ofTokens tokens 0 with rest := ((completed tokens).take (stop tokens)).drop c.current },
    h, rfl, (State.at_start tokens 0).endLine⟩

/-- A cursor gets to each place up to the first end token, and to no other. -/
theorem leads_iff : start.Leads c ↔ c.current ≤ stop tokens := by
  constructor
  · intro h
    induction h with
    | refl => exact Nat.zero_le _
    | tail _ hnext ih =>
        obtain ⟨t, hnext⟩ := hnext
        obtain ⟨s, hs⟩ := exists_at ih
        obtain ⟨t', c', s', hadvance, -, hplace, -⟩ := exists_advance hs
        cases hnext.symm.trans hadvance
        exact hplace.le
  · obtain ⟨i⟩ := c
    intro h
    induction i with
    | zero => exact .refl
    | succ i ih =>
        obtain ⟨s, hs⟩ := exists_at (c := ⟨i⟩) (Nat.le_of_succ_le h)
        obtain ⟨t, c', s', hadvance, -, -, hmoved⟩ := exists_advance hs
        have hrest : s.rest ≠ [] := by
          intro hnil
          have hlength := congrArg List.length (hs.rest.symm.trans hnil)
          have hstop := stop_lt tokens
          simp only [List.length_drop, List.length_take, List.length_nil] at hlength
          simp only at h
          omega
        obtain rfl : c' = ⟨i + 1⟩ := congrArg Cursor.mk (hmoved hrest).2
        exact (ih (Nat.le_of_succ_le h)).tail ⟨t, hadvance⟩

end Cursor

end Lox.Parser
