import Lox.Proofs.Grammar.Sound

/-!
# A derivation is what is read

The grammar groups to the left where the parser goes round in a loop, so a derivation ends where the
parser starts over. `Leads` follows the parser through one input without asking what is left to do,
which lets a loop be met in the middle of its rounds.

An expression is read to its end only if no token follows that would go on with it. Every token that
can stand between parts of an expression binds more or less tightly, and a rule stops at all those
that bind less tightly than its own operators do.
-/

namespace Lox.Parser

open Grammar

variable {α β : Type} {k k₁ k' : Nat} {input mid rest : List Token}

/-- On this input the reader `p` comes to where `q` starts on the rest, whatever the line of the end
and the faults before are. -/
def Leads (p : Parser α) (k : Nat) (input : List Token) (q : Parser α) (k' : Nat)
    (rest : List Token) : Prop :=
  ∀ line faults, p ⟨input, line, k, faults⟩ = q ⟨rest, line, k', faults⟩

/-- The reader takes the input up to the rest. -/
abbrev Reads (p : Parser α) (k : Nat) (input : List Token) (a : α) (k' : Nat)
    (rest : List Token) : Prop :=
  Leads p k input (pure a) k' rest

namespace Leads

variable {p q r : Parser α} {f : α → Parser β} {a : α}

theorem refl : Leads p k input p k input := fun _ _ => rfl

theorem trans (h₁ : Leads p k input q k₁ mid) (h₂ : Leads q k₁ mid r k' rest) :
    Leads p k input r k' rest :=
  fun line faults => (h₁ line faults).trans (h₂ line faults)

theorem bind_left (h : Leads p k input q k' rest) :
    Leads (p >>= f) k input (q >>= f) k' rest := by
  intro line faults
  show EStateM.bind p f _ = EStateM.bind q f _
  unfold EStateM.bind
  rw [h line faults]

theorem bind {q : Parser β} (h : Reads p k input a k₁ mid) (hf : Leads (f a) k₁ mid q k' rest) :
    Leads (p >>= f) k input q k' rest :=
  (pure_bind a f ▸ h.bind_left (f := f)).trans hf

end Leads

/-! ## Single tokens -/

section

variable {t : Token} {symbol : Symbol} {keyword : Keyword} {accepts : Token.Kind → Bool}

theorem take?_reads (h : accepts t.kind = true) :
    Reads (take? accepts) k (t :: rest) (some t) k rest := by
  intro line faults
  simp only [take?, h, if_true]
  rfl

theorem take?_leaves (h : ∀ t ∈ rest.head?, accepts t.kind = false) :
    Reads (take? accepts) k rest none k rest := by
  intro line faults
  cases rest with
  | nil => rfl
  | cons t ts =>
      simp only [take?, h t rfl]
      rfl

theorem expect_reads {spot : Spot} (h : t.kind = .symbol symbol) :
    Reads (expect symbol spot) k (t :: rest) t k rest :=
  (take?_reads (by simpa using h)).bind .refl

theorem expectName_reads {role : NameRole} (h : t.kind = .identifier) :
    Reads (expectName role) k (t :: rest) t k rest :=
  (take?_reads (by simpa using h)).bind .refl

theorem accept_reads (h : t.kind = .symbol symbol) :
    Reads (accept symbol) k (t :: rest) true k rest :=
  (take?_reads (by simpa using h)).bind .refl

theorem accept_leaves (h : ∀ t ∈ rest.head?, t.kind ≠ .symbol symbol) :
    Reads (accept symbol) k rest false k rest :=
  (take?_leaves (by simpa using h)).bind .refl

theorem acceptWord_reads (h : t.kind = .keyword keyword) :
    Reads (acceptWord keyword) k (t :: rest) true k rest :=
  (take?_reads (by simpa using h)).bind .refl

theorem acceptWord_leaves (h : ∀ t ∈ rest.head?, t.kind ≠ .keyword keyword) :
    Reads (acceptWord keyword) k rest false k rest :=
  (take?_leaves (by simpa using h)).bind .refl

theorem nextIs_reads : Reads (nextIs symbol) k input (input.head?.any (·.kind = .symbol symbol)) k input :=
  fun _ _ => rfl

theorem atEnd_reads : Reads atEnd k input input.isEmpty k input := fun _ _ => rfl

theorem peek_reads : Reads peek k (t :: rest) t k (t :: rest) := fun _ _ => rfl

theorem skip_reads : Reads skip k (t :: rest) () k rest := fun _ _ => rfl

theorem reference_reads {name : Token} : Reads (reference name) k rest ⟨k, name⟩ (k + 1) rest :=
  fun _ _ => rfl

theorem reportExcess_reads {count : Nat} {fault : SyntaxFault} (h : count < maxItems) :
    Reads (reportExcess count fault) k rest () k rest :=
  fun _ _ => if_neg (Nat.not_le.mpr h)

end

/-! ## Loops -/

section

variable {step : α → Parser (Option α)} {a b : α} {bound : Nat}

theorem rounds_succ (h : Reads (step a) k input (some b) k' rest) :
    Leads (rounds step (bound + 1) a) k input (rounds step bound b) k' rest :=
  h.bind .refl

theorem rounds_stop (h : Reads (step a) k rest none k rest) :
    Reads (rounds step bound a) k rest a k rest := by
  cases bound with
  | zero => exact .refl
  | succ bound => exact h.bind .refl

/-- Reading has come to a loop that has `a` in hand, with rounds for all the tokens left. -/
def InLoop (p : Parser α) (k : Nat) (input : List Token) (step : α → Parser (Option α)) (a : α)
    (k' : Nat) (rest : List Token) : Prop :=
  ∃ bound ≥ rest.length, Leads p k input (rounds step bound a) k' rest

theorem InLoop.stop {p : Parser α} (h : InLoop p k input step a k' rest)
    (hstop : Reads (step a) k' rest none k' rest) : Reads p k input a k' rest := by
  obtain ⟨bound, -, h⟩ := h
  exact h.trans (rounds_stop hstop)

theorem InLoop.next {p : Parser α} (h : InLoop p k input step a k₁ mid)
    (hnext : Reads (step a) k₁ mid (some b) k' rest) (hlen : rest.length < mid.length) :
    InLoop p k input step b k' rest := by
  obtain ⟨bound, hbound, h⟩ := h
  cases bound with
  | zero => omega
  | succ bound => exact ⟨bound, by omega, h.trans (rounds_succ hnext)⟩

end

/-! ## Items with commas between them -/

/-- One round of reading items. -/
def nextItem (item : Parser α) (excess : SyntaxFault) (taken : List α) :
    Parser (Option (List α)) := do
  if ← accept .comma then
    reportExcess taken.length excess
    return some ((← item) :: taken)
  else return none

/-- Items, last first. -/
def itemsLoop (bound : Nat) (item : Parser α) (excess : SyntaxFault) : Parser (List α) :=
  item >>= fun first => rounds (nextItem item excess) bound [first]

theorem separated_eq (bound : Nat) (item : Parser α) (excess : SyntaxFault) :
    separated bound item excess
      = itemsLoop bound item excess >>= fun reversed => pure reversed.reverse := by
  unfold itemsLoop
  rw [bind_assoc]
  rfl

section

variable {bound : Nat} {item : Parser α} {excess : SyntaxFault} {a : α} {taken : List α}

theorem items_first (h : Reads item k input a k' rest) (hlen : rest.length ≤ bound) :
    InLoop (itemsLoop bound item excess) k input (nextItem item excess) [a] k' rest :=
  ⟨bound, hlen, h.bind .refl⟩

theorem items_next {comma : Token}
    (h : InLoop (itemsLoop bound item excess) k input (nextItem item excess) taken k₁ (comma :: mid))
    (hcomma : comma.kind = .symbol .comma) (hcount : taken.length < maxItems)
    (hitem : Reads item k₁ mid a k' rest) (hlen : rest.length ≤ mid.length) :
    InLoop (itemsLoop bound item excess) k input (nextItem item excess) (a :: taken) k' rest :=
  h.next ((accept_reads hcomma).bind ((reportExcess_reads hcount).bind (hitem.bind .refl)))
    (by simpa using Nat.lt_succ_of_le hlen)

/-- Items that end where no comma follows. -/
theorem items_stop
    (h : InLoop (itemsLoop bound item excess) k input (nextItem item excess) taken k' rest)
    (hrest : ∀ t ∈ rest.head?, t.kind ≠ .symbol .comma) :
    Reads (separated bound item excess) k input taken.reverse k' rest := by
  rw [separated_eq]
  exact (h.stop ((accept_leaves hrest).bind .refl)).bind .refl

theorem parenthesized_none {right : Token} (h : right.kind = .symbol .rightParen) :
    Reads (parenthesized bound item excess) k (right :: rest) [] k (right :: rest) := by
  refine nextIs_reads.bind ?_
  simp only [List.head?_cons, Option.any_some, h, decide_true, if_true]
  exact .refl

theorem parenthesized_some {as : List α} (h : Reads (separated bound item excess) k input as k' rest)
    (hinput : ∀ t ∈ input.head?, t.kind ≠ .symbol .rightParen) :
    Reads (parenthesized bound item excess) k input as k' rest := by
  refine nextIs_reads.bind ?_
  cases input with
  | nil => exact h
  | cons t ts =>
      simp only [List.head?_cons, Option.any_some, hinput t rfl, decide_false]
      exact h

end

/-! ## Where expressions end -/

/-- How tightly a token binds the expressions that it stands between, or those before it. -/
def binding : Token.Kind → Nat
  | .symbol .leftParen | .symbol .dot => 8
  | .symbol .slash | .symbol .star => 7
  | .symbol .minus | .symbol .plus => 6
  | .symbol .greater | .symbol .greaterEqual | .symbol .less | .symbol .lessEqual => 5
  | .symbol .bangEqual | .symbol .equalEqual => 4
  | .keyword .andWord => 3
  | .keyword .orWord => 2
  | .symbol .equal => 1
  | _ => 0

/-- The binding of the operators of a level. -/
def strength : Level → Nat
  | .assignment => 1
  | .chain .disjunction => 2
  | .chain .conjunction => 3
  | .chain .equality => 4
  | .chain .comparison => 5
  | .chain .term => 6
  | .chain .factor => 7
  | .unary | .call => 8
  | .primary => 9

/-- No token follows that binds as tightly as the operators of a level, or tighter. -/
def Stops (level : Level) (rest : List Token) : Prop :=
  ∀ t ∈ rest.head?, binding t.kind < strength level

theorem strength_operand (c : Chain) : strength c.operand = strength (.chain c) + 1 := by
  cases c <;> rfl

theorem binding_operators {c : Chain} {kind : Token.Kind} (h : kind ∈ c.operators) :
    binding kind = strength (.chain c) := by
  cases c <;> simp only [Chain.operators, List.mem_cons, List.not_mem_nil, or_false] at h
  · exact h ▸ rfl
  · exact h ▸ rfl
  · rcases h with rfl | rfl <;> rfl
  · rcases h with rfl | rfl | rfl | rfl <;> rfl
  · rcases h with rfl | rfl <;> rfl
  · rcases h with rfl | rfl <;> rfl

theorem Stops.operand {c : Chain} (h : Stops (.chain c) rest) : Stops c.operand rest := by
  intro t ht
  rw [strength_operand]
  exact Nat.lt_succ_of_lt (h t ht)

theorem Stops.of_binding {level : Level} {t : Token} (h : binding t.kind = 0) :
    Stops level (t :: rest) := by
  intro t' ht
  cases ht
  rw [h]
  cases level with
  | chain c => cases c <;> decide
  | _ => decide

/-! ## Expressions -/

/-- The rule for the expressions of a level. -/
def rule (bound : Nat) (expression : Parser Expr) : Level → Parser Expr
  | .assignment => assignment bound expression
  | .chain .disjunction => disjunction bound expression
  | .chain .conjunction => conjunction bound expression
  | .chain .equality => equality bound expression
  | .chain .comparison => comparison bound expression
  | .chain .term => term bound expression
  | .chain .factor => factor bound expression
  | .unary => unary bound expression
  | .call => call bound expression
  | .primary => primary expression

/-- One round of reading a chain. -/
def nextOperand (c : Chain) (operand : Parser Expr) (left : Expr) : Parser (Option Expr) := do
  match ← take? (· ∈ c.operators) with
  | some operator => return some (c.join left operator (← operand))
  | none => return none

theorem rule_chain (bound : Nat) (expression : Parser Expr) (c : Chain) :
    rule bound expression (.chain c) = rule bound expression c.operand >>=
      rounds (nextOperand c (rule bound expression c.operand)) bound := by
  have accepts {p q : Token.Kind → Bool} (h : ∀ kind, p kind = q kind) : p = q := funext h
  cases c
  · exact congrArg (leftChain bound · _ _) (accepts fun kind => by simp [Chain.operators])
  · exact congrArg (leftChain bound · _ _) (accepts fun kind => by simp [Chain.operators])
  · exact congrArg (leftChain bound · _ _)
      (accepts fun kind => by simp [isEqualityOperator, Chain.operators])
  · exact congrArg (leftChain bound · _ _)
      (accepts fun kind => by simp [isComparisonOperator, Chain.operators, Bool.or_assoc])
  · exact congrArg (leftChain bound · _ _)
      (accepts fun kind => by simp [isTermOperator, Chain.operators])
  · exact congrArg (leftChain bound · _ _)
      (accepts fun kind => by simp [isFactorOperator, Chain.operators])

/-- One round of reading operators before an operand. -/
def nextOperator (taken : List Token) : Parser (Option (List Token)) := do
  return (← take? isUnaryOperator).map (· :: taken)

/-- Reads an operand and the operators before it, after others that have been taken already. -/
def unaryAfter (bound : Nat) (expression : Parser Expr) (n : Nat) (taken : List Token) :
    Parser Expr := do
  let reversed ← rounds nextOperator n taken
  let operand ← call bound expression
  return reversed.foldl (fun e operator => .unary operator e) operand

/-- How far the rule of a level comes with tokens that are an expression of the level: the rules
that loop are still in their loop. -/
def Reached (bound : Nat) (expression : Parser Expr) (level : Level) (k : Nat) (ts : List Token)
    (e : Expr) (k' : Nat) (rest : List Token) : Prop :=
  match level with
  | .chain c => Stops c.operand rest →
      InLoop (rule bound expression (.chain c)) k (ts ++ rest)
        (nextOperand c (rule bound expression c.operand)) e k' rest
  | .unary => Stops .unary rest → ∀ n taken, (ts ++ rest).length ≤ n →
      Reads (unaryAfter bound expression n taken) k (ts ++ rest)
        (taken.foldl (fun e operator => .unary operator e) e) k' rest
  | .call =>
      InLoop (call bound expression) k (ts ++ rest) (callSuffix bound expression) e k' rest
  | level => Stops level rest → Reads (rule bound expression level) k (ts ++ rest) e k' rest

section

variable {bound : Nat} {expression : Parser Expr} {level : Level} {ts : List Token} {e : Expr}

/-- Where no token follows that goes on with the expression, the rule ends. -/
theorem Reached.reads (h : Reached bound expression level k ts e k' rest) (hstop : Stops level rest)
    (hlen : (ts ++ rest).length ≤ bound) :
    Reads (rule bound expression level) k (ts ++ rest) e k' rest := by
  cases level with
  | assignment => exact h hstop
  | chain c =>
      refine (h hstop.operand).stop ((take?_leaves fun t ht => ?_).bind .refl)
      refine decide_eq_false fun hc => ?_
      exact absurd (hstop t ht) (by simp [binding_operators hc])
  | unary => exact h hstop bound [] hlen
  | call =>
      refine h.stop ((accept_leaves fun t ht hc => ?_).bind ((accept_leaves fun t ht hc => ?_).bind
        .refl))
      · exact absurd (hstop t ht) (by simp [hc, binding, strength])
      · exact absurd (hstop t ht) (by simp [hc, binding, strength])
  | primary => exact h hstop

/-- The reader reads every expression of at most `n` tokens, counting those that are left after
it. -/
def ReadsAll (n : Nat) (expression : Parser Expr) : Prop :=
  ∀ {k k' : Nat} {ts rest : List Token} {e : Expr}, Expression .assignment k ts e k' →
    (ts ++ rest).length ≤ n → Stops .assignment rest →
    Reads expression k (ts ++ rest) e k' rest

/-! ### One level inside the next -/

theorem Reached.noCall (h : Reached bound expression .primary k ts e k' rest)
    (hlen : (ts ++ rest).length ≤ bound) : Reached bound expression .call k ts e k' rest := by
  have hstop : Stops .primary rest := fun t _ => by
    unfold binding
    split <;> decide
  exact ⟨bound, by simp only [List.length_append] at hlen; omega, (h hstop).bind .refl⟩

theorem isUnaryOperator_of_startsCall {kind : Token.Kind} (h : startsCall kind = true) :
    isUnaryOperator kind = false := by
  refine Bool.eq_false_iff.mpr fun hoperator => ?_
  have hkind : kind = .symbol .bang ∨ kind = .symbol .minus := by
    simpa [isUnaryOperator] using hoperator
  rcases hkind with rfl | rfl <;> exact absurd h (by decide)

theorem Reached.noUnary (he : Expression .call k ts e k')
    (h : Reached bound expression .call k ts e k' rest) (hlen : (ts ++ rest).length ≤ bound) :
    Reached bound expression .unary k ts e k' rest := by
  intro hstop n taken _
  obtain ⟨t, ts', rfl, ht⟩ := he.first
  -- a call starts with no operator
  refine (rounds_stop ((take?_leaves fun t' ht' => ?_).bind .refl)).bind
    ((h.reads hstop hlen).bind .refl)
  cases ht'
  exact isUnaryOperator_of_startsCall ht

theorem Reached.operand {c : Chain} (h : Reached bound expression c.operand k ts e k' rest)
    (hlen : (ts ++ rest).length ≤ bound) :
    Reached bound expression (.chain c) k ts e k' rest := by
  intro hstop
  rw [rule_chain]
  exact ⟨bound, by simp only [List.length_append] at hlen; omega,
    (h.reads hstop hlen).bind .refl⟩

theorem disjunction_of_call (he : Expression .call k ts e k')
    (h : Reached bound expression .call k ts e k' rest) (hlen : (ts ++ rest).length ≤ bound)
    (hstop : Stops (.chain .disjunction) rest) :
    Reads (disjunction bound expression) k (ts ++ rest) e k' rest := by
  have factor : Reached bound expression (.chain .factor) k ts e k' rest :=
    Reached.operand (c := .factor) (h.noUnary he hlen) hlen
  have term : Reached bound expression (.chain .term) k ts e k' rest :=
    Reached.operand (c := .term) factor hlen
  have comparison : Reached bound expression (.chain .comparison) k ts e k' rest :=
    Reached.operand (c := .comparison) term hlen
  have equality : Reached bound expression (.chain .equality) k ts e k' rest :=
    Reached.operand (c := .equality) comparison hlen
  have conjunction : Reached bound expression (.chain .conjunction) k ts e k' rest :=
    Reached.operand (c := .conjunction) equality hlen
  exact (Reached.operand (c := .disjunction) conjunction hlen).reads hstop hlen

/-! ### Primary expressions -/

theorem literal_reads {t : Token} {value : Literal} (h : constant? t.kind = some value) :
    Reads (primary expression) k (t :: rest) (.literal value) k rest := by
  obtain ⟨kind, lexeme, line⟩ := t
  refine peek_reads.bind ?_
  unfold constant? at h
  split at h
  case h_6 => exact absurd h (by simp)
  all_goals
    rename_i hkind
    cases hkind
    cases h
    exact skip_reads.bind .refl

theorem ident_reads {name : Token} (h : name.kind = .identifier) :
    Reads (primary expression) k (name :: rest) (.ident ⟨k, name⟩) (k + 1) rest := by
  obtain ⟨kind, lexeme, line⟩ := name
  cases h
  exact peek_reads.bind (skip_reads.bind (reference_reads.bind .refl))

theorem this_reads {keyword : Token} (h : keyword.kind = .keyword .thisWord) :
    Reads (primary expression) k (keyword :: rest) (.this ⟨k, keyword⟩) (k + 1) rest := by
  obtain ⟨kind, lexeme, line⟩ := keyword
  cases h
  exact peek_reads.bind (skip_reads.bind (reference_reads.bind .refl))

theorem super_reads {keyword dot method : Token} (h : keyword.kind = .keyword .superWord)
    (hdot : dot.kind = .symbol .dot) (hmethod : method.kind = .identifier) :
    Reads (primary expression) k (keyword :: dot :: method :: rest)
      (.super ⟨k, keyword⟩ method) (k + 1) rest := by
  obtain ⟨kind, lexeme, line⟩ := keyword
  cases h
  exact peek_reads.bind (skip_reads.bind ((expect_reads hdot).bind
    ((expectName_reads hmethod).bind (reference_reads.bind .refl))))

theorem grouping_reads {n : Nat} {left right : Token} (he : ReadsAll n expression)
    (hleft : left.kind = .symbol .leftParen) (h : Expression .assignment k ts e k')
    (hright : right.kind = .symbol .rightParen)
    (hlen : (left :: (ts ++ [right]) ++ rest).length ≤ n + 1) :
    Reads (primary expression) k (left :: (ts ++ [right]) ++ rest) (.grouping e) k' rest := by
  obtain ⟨kind, lexeme, line⟩ := left
  cases hleft
  have hinner : Reads expression k (ts ++ right :: rest) e k' (right :: rest) :=
    he h (by simpa using hlen) (.of_binding (by simp [hright, binding]))
  rw [List.cons_append, List.append_assoc]
  exact peek_reads.bind (skip_reads.bind (hinner.bind ((expect_reads hright).bind .refl)))

/-! ### Calls -/

theorem arguments_inLoop {n : Nat} (he : ReadsAll n expression) : ∀ {k k' : Nat} {ts : List Token}
    {given : List Expr}, Arguments k ts given k' → given ≠ [] → given.length ≤ maxItems →
    ∀ {rest}, (ts ++ rest).length ≤ n → Stops .assignment rest →
      InLoop (itemsLoop (n + 1) expression .tooManyArguments) k (ts ++ rest)
        (nextItem expression .tooManyArguments) given.reverse k' rest
  | _, _, _, _, .none, hne, _, _, _, _ => absurd rfl hne
  | _, _, _, _, .first h, _, _, rest, hlen, hstop =>
      items_first (he h hlen hstop) (by simp only [List.length_append] at hlen; omega)
  | _, _, _, _, @Arguments.next comma _ _ _ ts ts' given e h hne hcomma ha, _, hcount, rest, hlen,
      hstop => by
      rw [List.length_append, List.length_singleton] at hcount
      simp only [List.append_assoc, List.cons_append, List.length_append, List.length_cons] at hlen
      have hcount' : given.reverse.length < maxItems := by rwa [List.length_reverse]
      have hlen' : (ts ++ comma :: (ts' ++ rest)).length ≤ n := by simpa using hlen
      have hbefore := arguments_inLoop he h hne (Nat.le_of_succ_le hcount) hlen'
        (.of_binding (by simp [hcomma, binding]))
      rw [List.append_assoc, List.reverse_append]
      refine items_next hbefore hcomma hcount' (he ha ?_ hstop) (by simp)
      rw [List.length_append]
      omega

theorem arguments_reads {n : Nat} {right : Token} {given : List Expr} (he : ReadsAll n expression)
    (h : Arguments k ts given k') (hcount : given.length ≤ maxItems)
    (hright : right.kind = .symbol .rightParen) (hlen : (ts ++ right :: rest).length ≤ n) :
    Reads (arguments (n + 1) expression) k (ts ++ right :: rest) given k' (right :: rest) := by
  have hstop : Stops .assignment (right :: rest) := .of_binding (by simp [hright, binding])
  rcases h.first_or_none with ⟨rfl, rfl, rfl⟩ | ⟨hne, t, ts', rfl, ht⟩
  · exact parenthesized_none hright
  · have hloop := items_stop (arguments_inLoop he h hne hcount hlen hstop) (by simp [hright])
    rw [List.reverse_reverse] at hloop
    refine parenthesized_some hloop fun t' ht' hkind => ?_
    cases ht'
    rw [hkind] at ht
    exact absurd ht (by decide)

theorem Reached.call {n : Nat} {left right : Token} {ts' : List Token} {given : List Expr}
    (he : ReadsAll n expression) (hleft : left.kind = .symbol .leftParen)
    (hgiven : Arguments k₁ ts' given k') (hcount : given.length ≤ maxItems)
    (hright : right.kind = .symbol .rightParen)
    (hlen : (ts ++ left :: (ts' ++ [right]) ++ rest).length ≤ n + 1)
    (h : Reached (n + 1) expression .call k ts e k₁ (left :: (ts' ++ right :: rest))) :
    Reached (n + 1) expression .call k (ts ++ left :: (ts' ++ [right])) (.call e right given) k'
      rest := by
  simp only [List.append_assoc, List.cons_append, List.length_append, List.length_cons] at hlen
  show InLoop _ _ _ _ _ _ _
  simp only [List.append_assoc, List.cons_append, List.nil_append]
  refine InLoop.next h ((accept_reads hleft).bind ?_) (by simp; omega)
  have hlen' : (ts' ++ right :: rest).length ≤ n := by simp at hlen ⊢; omega
  have hargs := arguments_reads he hgiven hcount hright hlen'
  exact hargs.bind ((expect_reads hright).bind .refl)

theorem Reached.get {dot name : Token} (hdot : dot.kind = .symbol .dot)
    (hname : name.kind = .identifier)
    (h : Reached bound expression .call k ts e k' (dot :: name :: rest)) :
    Reached bound expression .call k (ts ++ [dot, name]) (.get e name) k' rest := by
  show InLoop _ _ _ _ _ _ _
  simp only [List.append_assoc, List.cons_append, List.nil_append]
  refine InLoop.next h ((accept_leaves fun t ht => ?_).bind ((accept_reads hdot).bind
    ((expectName_reads hname).bind .refl))) (by simp only [List.length_cons]; omega)
  cases ht
  simp [hdot]

/-! ### Operators -/

theorem Reached.unary {operator : Token} (hoperator : operator.kind ∈ unaryOperators)
    (h : Reached bound expression .unary k ts e k' rest) :
    Reached bound expression .unary k (operator :: ts) (.unary operator e) k' rest := by
  intro hstop n taken hlen
  cases n with
  | zero => simp at hlen
  | succ n =>
      have htake : Reads (nextOperator taken) k (operator :: (ts ++ rest))
          (some (operator :: taken)) k (ts ++ rest) := by
        refine (take?_reads ?_).bind .refl
        simpa [isUnaryOperator, unaryOperators] using hoperator
      exact (rounds_succ htake).bind_left.trans
        (h hstop n (operator :: taken) (Nat.le_of_succ_le_succ hlen))

theorem Reached.operation {c : Chain} {operator : Token} {ts' : List Token} {right : Expr}
    (hoperator : operator.kind ∈ c.operators)
    (hlen : (ts ++ operator :: ts' ++ rest).length ≤ bound)
    (h : Reached bound expression (.chain c) k ts e k₁ (operator :: (ts' ++ rest)))
    (hright : Reached bound expression c.operand k₁ ts' right k' rest) :
    Reached bound expression (.chain c) k (ts ++ operator :: ts') (c.join e operator right) k'
      rest := by
  intro hstop
  simp only [List.append_assoc, List.cons_append, List.length_append, List.length_cons] at hlen
  have hleft : Stops c.operand (operator :: (ts' ++ rest)) := by
    intro t ht
    cases ht
    rw [binding_operators hoperator, strength_operand]
    exact Nat.lt_succ_self _
  have hoperand := hright.reads hstop (by simp; omega)
  rw [List.append_assoc, List.cons_append]
  exact (h hleft).next ((take?_reads (by simpa using hoperator)).bind (hoperand.bind .refl))
    (by simp only [List.length_append, List.length_cons]; omega)

/-! ### Assignments -/

theorem Reached.noAssignment
    (h : Reached bound expression (.chain .disjunction) k ts e k' rest)
    (hlen : (ts ++ rest).length ≤ bound) :
    Reached bound expression .assignment k ts e k' rest := by
  intro hstop
  have hdisjunction : Stops (.chain .disjunction) rest := fun t ht => Nat.lt_succ_of_lt (hstop t ht)
  refine (h.reads hdisjunction hlen).bind ((take?_leaves fun t ht => ?_).bind .refl)
  refine decide_eq_false fun hc => ?_
  exact absurd (hstop t ht) (by simp [hc, binding, strength])

theorem Reached.assignName {n : Nat} {name equals : Token} (he : ReadsAll n expression)
    (hname : name.kind = .identifier) (hequals : equals.kind = .symbol .equal)
    (hvalue : Expression .assignment (k + 1) ts e k')
    (hlen : (name :: equals :: ts ++ rest).length ≤ n + 1) :
    Reached (n + 1) expression .assignment k (name :: equals :: ts) (.assign ⟨k', name⟩ e)
      (k' + 1) rest := by
  intro hstop
  have hcall : Reached (n + 1) expression .call k [name] (.ident ⟨k, name⟩) (k + 1)
      (equals :: (ts ++ rest)) :=
    Reached.noCall (fun _ => ident_reads hname) (by simpa using hlen)
  have htarget := disjunction_of_call (.noCall (.ident hname)) hcall (by simpa using hlen)
    (fun t ht => by cases ht; simp [hequals, binding, strength])
  refine htarget.bind ((take?_reads (by simpa using hequals)).bind ?_)
  exact (he hvalue (by simp at hlen ⊢; omega) hstop).bind (reference_reads.bind .refl)

theorem Reached.assignField {n : Nat} {dot name equals : Token} {ts' : List Token} {value : Expr}
    (he : ReadsAll n expression) (hobject : Expression .call k ts e k₁)
    (hdot : dot.kind = .symbol .dot) (hname : name.kind = .identifier)
    (hequals : equals.kind = .symbol .equal) (hvalue : Expression .assignment k₁ ts' value k')
    (hlen : (ts ++ dot :: name :: equals :: ts' ++ rest).length ≤ n + 1)
    (h : Reached (n + 1) expression .call k ts e k₁ (dot :: name :: equals :: (ts' ++ rest))) :
    Reached (n + 1) expression .assignment k (ts ++ dot :: name :: equals :: ts')
      (.set e name value) k' rest := by
  intro hstop
  simp only [List.append_assoc, List.cons_append, List.length_append, List.length_cons] at hlen
  have htarget := disjunction_of_call (.get hobject hdot hname) (h.get hdot hname)
    (by simp; omega) (fun t ht => by cases ht; simp [hequals, binding, strength])
  simp only [List.append_assoc, List.cons_append, List.nil_append] at htarget ⊢
  refine htarget.bind ((take?_reads (by simpa using hequals)).bind ?_)
  exact (he hvalue (by simp; omega) hstop).bind .refl

/-! ### All expressions -/

/-- Every derivation of an expression is followed by the rule of its level. -/
theorem reached {n : Nat} (he : ReadsAll n expression) : ∀ {level : Level} {k k' : Nat}
    {ts : List Token} {e : Expr}, Expression level k ts e k' →
    ∀ {rest}, (ts ++ rest).length ≤ n + 1 →
      Reached (n + 1) expression level k ts e k' rest
  | _, _, _, _, _, .assignName hname hequals hvalue, _, hlen =>
      .assignName he hname hequals hvalue hlen
  | _, _, _, _, _, .assignField hobject hdot hname hequals hvalue, _, hlen =>
      .assignField he hobject hdot hname hequals hvalue hlen (reached he hobject (by simpa using hlen))
  | _, _, _, _, _, .noAssignment h, _, hlen => (reached he h hlen).noAssignment hlen
  | _, _, _, _, _, .operation hleft hoperator hright, _, hlen =>
      .operation hoperator hlen (reached he hleft (by simpa using hlen))
        (reached he hright (by simp at hlen ⊢; omega))
  | _, _, _, _, _, .operand h, _, hlen => (reached he h hlen).operand hlen
  | _, _, _, _, _, .unary hoperator h, _, hlen =>
      (reached he h (Nat.le_of_succ_le hlen)).unary hoperator
  | _, _, _, _, _, .noUnary h, _, hlen => (reached he h hlen).noUnary h hlen
  | _, _, _, _, _, .call h hleft hgiven hcount hright, _, hlen =>
      .call he hleft hgiven hcount hright hlen (reached he h (by simpa using hlen))
  | _, _, _, _, _, .get h hdot hname, _, hlen =>
      (reached he h (by simpa using hlen)).get hdot hname
  | _, _, _, _, _, .noCall h, _, hlen => (reached he h hlen).noCall hlen
  | _, _, _, _, _, .literal h, _, _ => fun _ => literal_reads h
  | _, _, _, _, _, .ident h, _, _ => fun _ => ident_reads h
  | _, _, _, _, _, .this h, _, _ => fun _ => this_reads h
  | _, _, _, _, _, .super h hdot hmethod, _, _ => fun _ => super_reads h hdot hmethod
  | _, _, _, _, _, .grouping hleft h hright, _, hlen => fun _ =>
      grouping_reads he hleft h hright hlen

end

theorem expression_reads : ∀ (bound : Nat), ReadsAll bound (expression bound)
  | 0 => fun h hlen _ => by
      obtain ⟨t, ts', rfl, -⟩ := h.first
      simp at hlen
  | bound + 1 => fun h hlen hstop =>
      (reached (expression_reads bound) h hlen).reads hstop hlen

end Lox.Parser
