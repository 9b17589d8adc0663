import Lox.Program.Parser
import Lox.Proofs.Grammar

/-!
# What is read is a derivation

A fault that was recorded stays recorded. So a reading that ends without a fault never met one, and
then each reader took tokens that its rule of the grammar derives.

`Sound` says this of a single reader, and the lemmas on `pure`, `bind` and `rounds` put readers
together. The branches that record a fault drop out, since nothing takes it back. Only for
statements does it matter what is left after them: an open one is never followed by an `else`.
-/

namespace Lox.Parser

open Grammar

variable {α β : Type} {k : Nat}

/-- If no fault is recorded at the end of the reader, then none was recorded at its start, and if it
started at number `k`, then the tokens it took, its result, the number it left off at and the tokens
that are left are related by `R`. -/
def Sound (k : Nat) (p : Parser α) (R : List Token → α → Nat → List Token → Prop) : Prop :=
  ∀ s a s', p s = .ok a s' → s'.faults = #[] →
    s.faults = #[] ∧
      (s.nextId = k → ∃ ts, s.rest = ts ++ s'.rest ∧ R ts a s'.nextId s'.rest)

/-- `Sound`, where it does not matter what is left. -/
abbrev Derives (k : Nat) (p : Parser α) (D : List Token → α → Nat → Prop) : Prop :=
  Sound k p fun ts a k' _ => D ts a k'

/-! ## Putting readers together -/

theorem bind_eq_ok {p : Parser α} {f : α → Parser β} {s s' : State} {b : β} :
    (p >>= f) s = .ok b s' ↔ ∃ a s₁, p s = .ok a s₁ ∧ f a s₁ = .ok b s' := by
  show EStateM.bind p f s = _ ↔ _
  unfold EStateM.bind
  cases p s with
  | ok a s₁ =>
    constructor
    · exact fun h => ⟨a, s₁, rfl, h⟩
    · rintro ⟨a, s₁, h₁, h₂⟩
      injection h₁ with ha hs
      exact ha ▸ hs ▸ h₂
  | error d s₁ => simp

theorem pure_eq_ok {a b : α} {s s' : State} : (pure a : Parser α) s = .ok b s' ↔ a = b ∧ s = s' := by
  show EStateM.Result.ok a s = _ ↔ _
  simp

namespace Sound

variable {p : Parser α} {f : α → Parser β} {P R : List Token → α → Nat → List Token → Prop}
  {Q : List Token → β → Nat → List Token → Prop}

theorem pure {a : α} (h : ∀ rest, R [] a k rest) : Sound k (pure a) R := by
  intro s b s' hp hno
  obtain ⟨rfl, rfl⟩ := pure_eq_ok.mp hp
  exact ⟨hno, fun hk => ⟨[], rfl, hk ▸ h _⟩⟩

theorem imp (hp : Sound k p P) (h : ∀ ts a k' rest, P ts a k' rest → R ts a k' rest) :
    Sound k p R := by
  intro s a s' hs hno
  obtain ⟨hno₀, hP⟩ := hp s a s' hs hno
  refine ⟨hno₀, fun hk => ?_⟩
  obtain ⟨ts, hts, ha⟩ := hP hk
  exact ⟨ts, hts, h _ _ _ _ ha⟩

/-- What the first reader ensures is a premise of what the second one has to ensure, and not of the
second one itself, so that no fault is lost sight of on the way back. -/
theorem bind (hp : Sound k p P)
    (hf : ∀ a ts k₁, Sound k₁ (f a) fun ts' b k' rest =>
      P ts a k₁ (ts' ++ rest) → Q (ts ++ ts') b k' rest) :
    Sound k (p >>= f) Q := by
  intro s b s' h hno
  obtain ⟨a, s₁, h₁, h₂⟩ := bind_eq_ok.mp h
  obtain ⟨hno₁, -⟩ := hf a [] s₁.nextId s₁ b s' h₂ hno
  obtain ⟨hno₀, hP⟩ := hp s a s₁ h₁ hno₁
  refine ⟨hno₀, fun hk => ?_⟩
  obtain ⟨ts, hts, ha⟩ := hP hk
  obtain ⟨ts', hts', hb⟩ := (hf a ts s₁.nextId s₁ b s' h₂ hno).2 rfl
  exact ⟨ts ++ ts', by rw [hts, hts', List.append_assoc], hb (hts' ▸ ha)⟩

theorem ite {b : Bool} {p q : Parser α} (hp : Sound k p R) (hq : Sound k q R) :
    Sound k (if b = true then p else q) R := by
  cases b with
  | true => exact hp
  | false => exact hq

/-- A loop keeps what each of its rounds keeps. -/
theorem rounds {step : α → Parser (Option α)} {I : List Token → α → Nat → Prop}
    (hstep : ∀ a k, Derives k (step a) fun ts o k' =>
      ∀ before, I before a k → I (before ++ ts) (o.getD a) k') :
    ∀ (bound : Nat) (a : α) (k : Nat), Derives k (rounds step bound a) fun ts b k' =>
      ∀ before, I before a k → I (before ++ ts) b k'
  | 0, a, k => pure fun _ before h => by simpa using h
  | bound + 1, a, k => by
      refine (hstep a k).bind fun o ts k₁ => ?_
      cases o with
      | some b =>
          refine (rounds hstep bound b k₁).imp fun ts' c k' _ hc hb before h => ?_
          rw [← List.append_assoc]
          exact hc _ (hb before h)
      | none =>
          refine pure fun _ ha before h => ?_
          rw [List.append_nil]
          exact ha before h

end Sound

/-! ## Single tokens

What follows such a reader is looked at once it is known what was taken. -/

section

variable {R : List Token → β → Nat → List Token → Prop}

/-- A reader that leaves the next token where it is can tell that it was not an accepted one. -/
theorem take?_sound_left {accepts : Token.Kind → Bool} {f : Option Token → Parser β}
    (hsome : ∀ t, accepts t.kind = true →
      Sound k (f (some t)) fun ts b k' rest => R (t :: ts) b k' rest)
    (hnone : Sound k (f none) fun ts b k' rest =>
      (∀ t ∈ (ts ++ rest).head?, accepts t.kind = false) → R ts b k' rest) :
    Sound k (take? accepts >>= f) R := by
  intro s b s' h hno
  obtain ⟨o, s₁, h₁, h₂⟩ := bind_eq_ok.mp h
  -- nothing was taken, since the next token, if there is one, is not accepted
  have left (hs : s = s₁) (ho : o = none) (hleft : ∀ t ∈ s.rest.head?, accepts t.kind = false) :
      s.faults = #[] ∧ (s.nextId = k → ∃ ts, s.rest = ts ++ s'.rest ∧ R ts b s'.nextId s'.rest) := by
    subst hs; subst ho
    obtain ⟨hf, hR⟩ := hnone s b s' h₂ hno
    refine ⟨hf, fun hk => ?_⟩
    obtain ⟨ts, hts, hb⟩ := hR hk
    exact ⟨ts, hts, hb (hts ▸ hleft)⟩
  unfold take? at h₁
  split at h₁
  · next t ts hrest =>
    split at h₁
    · next ht =>
      injection h₁ with ho hs
      subst ho; subst hs
      obtain ⟨hf, hR⟩ := hsome t ht _ b s' h₂ hno
      refine ⟨hf, fun hk => ?_⟩
      obtain ⟨ts', hts, hb⟩ := hR hk
      exact ⟨t :: ts', hrest.trans (congrArg (t :: ·) hts), hb⟩
    · next ht =>
      injection h₁ with ho hs
      exact left hs ho.symm (by simpa [hrest] using ht)
  · next hrest =>
    injection h₁ with ho hs
    exact left hs ho.symm (by simp [hrest])

theorem take?_sound {accepts : Token.Kind → Bool} {f : Option Token → Parser β}
    (hsome : ∀ t, accepts t.kind = true →
      Sound k (f (some t)) fun ts b k' rest => R (t :: ts) b k' rest)
    (hnone : Sound k (f none) R) : Sound k (take? accepts >>= f) R :=
  take?_sound_left hsome (hnone.imp fun _ _ _ _ h _ => h)

theorem fail_sound {fault : SyntaxFault} : Sound k (fail fault) R := by
  intro s b s' h
  exact absurd h (by simp [fail])

theorem fail_bind_sound {fault : SyntaxFault} {f : α → Parser β} :
    Sound k (fail fault >>= f) R := by
  intro s b s' h
  obtain ⟨a, s₁, h₁, -⟩ := bind_eq_ok.mp h
  exact absurd h₁ (by simp [fail])

theorem expect_sound {symbol : Symbol} {spot : Spot} {f : Token → Parser β}
    (h : ∀ t, t.kind = .symbol symbol → Sound k (f t) fun ts b k' rest => R (t :: ts) b k' rest) :
    Sound k (expect symbol spot >>= f) R := by
  unfold expect symbol?
  rw [bind_assoc]
  refine take?_sound (fun t ht => ?_) fail_bind_sound
  rw [pure_bind]
  exact h t (by simpa using ht)

theorem expectName_sound {role : NameRole} {f : Token → Parser β}
    (h : ∀ t, t.kind = .identifier → Sound k (f t) fun ts b k' rest => R (t :: ts) b k' rest) :
    Sound k (expectName role >>= f) R := by
  unfold expectName
  rw [bind_assoc]
  refine take?_sound (fun t ht => ?_) fail_bind_sound
  rw [pure_bind]
  exact h t (by simpa using ht)

theorem accept_sound {symbol : Symbol} {p q : Parser β}
    (hp : ∀ t, t.kind = .symbol symbol → Sound k p fun ts b k' rest => R (t :: ts) b k' rest)
    (hq : Sound k q R) : Sound k (accept symbol >>= fun b => if b = true then p else q) R := by
  unfold accept symbol?
  rw [bind_assoc]
  refine take?_sound (fun t ht => ?_) ?_
  · rw [pure_bind]
    exact hp t (by simpa using ht)
  · rw [pure_bind]
    exact hq

theorem keyword?_sound {keyword : Keyword} {f : Option Token → Parser β}
    (hsome : ∀ t, t.kind = .keyword keyword →
      Sound k (f (some t)) fun ts b k' rest => R (t :: ts) b k' rest)
    (hnone : Sound k (f none) R) : Sound k (keyword? keyword >>= f) R :=
  take?_sound (fun t ht => hsome t (by simpa using ht)) hnone

theorem acceptWord_sound_left {keyword : Keyword} {p q : Parser β}
    (hp : ∀ t, t.kind = .keyword keyword → Sound k p fun ts b k' rest => R (t :: ts) b k' rest)
    (hq : Sound k q fun ts b k' rest =>
      (∀ t ∈ (ts ++ rest).head?, t.kind ≠ .keyword keyword) → R ts b k' rest) :
    Sound k (acceptWord keyword >>= fun b => if b = true then p else q) R := by
  unfold acceptWord keyword?
  rw [bind_assoc]
  refine take?_sound_left (fun t ht => ?_) ?_
  · rw [pure_bind]
    exact hp t (by simpa using ht)
  · rw [pure_bind]
    exact hq.imp fun ts b k' rest hR hleft => hR (by simpa using hleft)

theorem acceptWord_sound {keyword : Keyword} {p q : Parser β}
    (hp : ∀ t, t.kind = .keyword keyword → Sound k p fun ts b k' rest => R (t :: ts) b k' rest)
    (hq : Sound k q R) : Sound k (acceptWord keyword >>= fun b => if b = true then p else q) R :=
  acceptWord_sound_left hp (hq.imp fun _ _ _ _ h _ => h)

theorem nextIs_sound {symbol : Symbol} {f : Bool → Parser β} (h : ∀ b, Sound k (f b) R) :
    Sound k (nextIs symbol >>= f) R :=
  fun s b s' hs hno => h _ s b s' hs hno

theorem atEnd_sound {f : Bool → Parser β} (h : ∀ b, Sound k (f b) R) : Sound k (atEnd >>= f) R :=
  fun s b s' hs hno => h _ s b s' hs hno

theorem reference_sound {name : Token} {f : Reference → Parser β}
    (h : ∀ id, Sound (id + 1) (f ⟨id, name⟩) fun ts b k' rest => id = k → R ts b k' rest) :
    Sound k (reference name >>= f) R := by
  intro s b s' hs hno
  obtain ⟨hf, hR⟩ := h s.nextId _ b s' hs hno
  refine ⟨hf, fun hk => ?_⟩
  obtain ⟨ts, hts, hb⟩ := hR rfl
  exact ⟨ts, hts, hb hk⟩

theorem report_sound {t : Token} {fault : SyntaxFault} {f : Unit → Parser β}
    {Q : List Token → β → Nat → List Token → Prop} (h : Sound k (f ()) Q) :
    Sound k (report t fault >>= f) R := by
  intro s b s' hs hno
  obtain ⟨hf, -⟩ := h _ b s' hs hno
  exact absurd hf (by simp)

theorem reportExcess_sound {count : Nat} {fault : SyntaxFault} {f : Unit → Parser β}
    (h : Sound k (f ()) fun ts b k' rest => count < maxItems → R ts b k' rest) :
    Sound k (reportExcess count fault >>= f) R := by
  intro s b s' hs hno
  obtain ⟨_, s₁, h₁, h₂⟩ := bind_eq_ok.mp hs
  obtain ⟨hf, hR⟩ := h s₁ b s' h₂ hno
  unfold reportExcess report at h₁
  split at h₁
  · injection h₁ with _ hs
    subst hs
    exact absurd hf (by simp)
  · next hcount =>
    injection h₁ with _ hs
    subst hs
    refine ⟨hf, fun hk => ?_⟩
    obtain ⟨ts, hts, hb⟩ := hR hk
    exact ⟨ts, hts, hb (Nat.not_le.mp hcount)⟩

/-- `Sound`, where the token to be read next is known. -/
def SoundAt (t : Token) (k : Nat) (p : Parser β) (R : List Token → β → Nat → List Token → Prop) : Prop :=
  ∀ s b s', s.peek = t → p s = .ok b s' → s'.faults = #[] →
    s.faults = #[] ∧ (s.nextId = k → ∃ ts, s.rest = ts ++ s'.rest ∧ R ts b s'.nextId s'.rest)

theorem peek_sound {f : Token → Parser β} (h : ∀ t, SoundAt t k (f t) R) :
    Sound k (peek >>= f) R :=
  fun s b s' hs hno => h s.peek s b s' rfl hs hno

theorem skip_sound {p : Parser β} {t : Token} (hkind : t.kind ≠ .eof)
    (hp : Sound k p fun ts b k' rest => R (t :: ts) b k' rest) : SoundAt t k (skip >>= fun _ => p) R := by
  intro s b s' ht h hno
  obtain ⟨hf, hR⟩ := hp _ b s' h hno
  refine ⟨hf, fun hk => ?_⟩
  obtain ⟨ts, hts, hb⟩ := hR hk
  obtain ⟨rest, line, id, faults⟩ := s
  subst ht
  cases rest with
  | nil => exact absurd rfl hkind
  | cons t rest => exact ⟨t :: ts, congrArg (t :: ·) hts, hb⟩

end

/-! ## Items with commas between them -/

section

variable {item : Parser α} {Item : Nat → List Token → α → Nat → Prop}
  {Items : Nat → List Token → List α → Nat → Prop}

theorem separated_sound {bound : Nat} {excess : SyntaxFault} (hitem : ∀ k, Derives k item (Item k))
    (first : ∀ {k k' ts a}, Item k ts a k' → Items k ts [a] k')
    (next : ∀ {k k₁ k' ts ts' comma as a}, Items k ts as k₁ → as ≠ [] →
      comma.kind = .symbol .comma → Item k₁ ts' a k' →
      Items k (ts ++ comma :: ts') (as ++ [a]) k') :
    Derives k (separated bound item excess) fun ts as k' =>
      Items k ts as k' ∧ as.length ≤ maxItems := by
  -- what has been taken, last first, is never empty
  let I (before : List Token) (taken : List α) (k' : Nat) : Prop :=
    Items k before taken.reverse k' ∧ taken ≠ [] ∧ taken.length ≤ maxItems
  refine (hitem k).bind fun a ts k₁ => ?_
  refine (Sound.rounds (I := I) (fun taken k₂ => ?_) bound [a] k₁).bind fun taken ts' k₂ => ?_
  · refine accept_sound (fun comma hcomma => ?_) (Sound.pure fun _ before hI => by simpa using hI)
    refine reportExcess_sound ((hitem k₂).bind fun a ts₁ k₃ => Sound.pure ?_)
    rintro - ha hlen before ⟨hI, hne, -⟩
    refine ⟨?_, List.cons_ne_nil _ _, hlen⟩
    simpa using next hI (by simpa using hne) hcomma ha
  · refine Sound.pure fun _ hI ha => ?_
    obtain ⟨h₁, -, h₃⟩ := hI ts ⟨by simpa using first ha, List.cons_ne_nil _ _, by simp [maxItems]⟩
    exact ⟨by simpa using h₁, by simpa using h₃⟩

theorem parenthesized_sound {bound : Nat} {excess : SyntaxFault}
    (hitem : ∀ k, Derives k item (Item k)) (none : ∀ {k}, Items k [] [] k)
    (first : ∀ {k k' ts a}, Item k ts a k' → Items k ts [a] k')
    (next : ∀ {k k₁ k' ts ts' comma as a}, Items k ts as k₁ → as ≠ [] →
      comma.kind = .symbol .comma → Item k₁ ts' a k' →
      Items k (ts ++ comma :: ts') (as ++ [a]) k') :
    Derives k (parenthesized bound item excess) fun ts as k' =>
      Items k ts as k' ∧ as.length ≤ maxItems :=
  nextIs_sound fun _ => Sound.ite (Sound.pure fun _ => ⟨none, Nat.zero_le _⟩)
    (separated_sound hitem first next)

end

/-! ## Expressions -/

/-- What an expression is made of whose tree could be the target of an assignment. -/
def TargetShape (k : Nat) (ts : List Token) (k' : Nat) : Expr → Prop
  | .ident use => ts = [use.name] ∧ use.id = k ∧ k' = k + 1 ∧ use.name.kind = .identifier
  | .get object name => ∃ ts' dot, ts = ts' ++ [dot, name] ∧ Expression .call k ts' object k' ∧
      dot.kind = .symbol .dot ∧ name.kind = .identifier
  | _ => True

theorem targetShape : ∀ {level : Level} {k k' : Nat} {ts : List Token} {e : Expr},
    Expression level k ts e k' → TargetShape k ts k' e
  | _, _, _, _, _, .noAssignment h => targetShape h
  | _, _, _, _, _, .operand h => targetShape h
  | _, _, _, _, _, .noUnary h => targetShape h
  | _, _, _, _, _, .noCall h => targetShape h
  | _, _, _, _, _, .ident h => ⟨rfl, rfl, rfl, h⟩
  | _, _, _, _, _, .get h hd hn => ⟨_, _, rfl, h, hd, hn⟩
  | _, _, _, _, _, @Expression.operation c .. => by cases c <;> trivial
  | _, _, _, _, _, .assignName .. => trivial
  | _, _, _, _, _, .assignField .. => trivial
  | _, _, _, _, _, .unary .. => trivial
  | _, _, _, _, _, .call .. => trivial
  | _, _, _, _, _, .literal .. => trivial
  | _, _, _, _, _, .this .. => trivial
  | _, _, _, _, _, .super .. => trivial
  | _, _, _, _, _, .grouping .. => trivial

section

variable {bound : Nat} {expression : Parser Expr}

theorem primary_sound (he : ∀ k, Derives k expression (Expression .assignment k)) :
    Derives k (primary expression) (Expression .primary k) := by
  refine peek_sound fun t => ?_
  have constant : ∀ {value : Literal}, constant? t.kind = some value →
      SoundAt t k (skip >>= fun _ => pure (.literal value))
        fun ts e k' _ => Expression .primary k ts e k' := fun hv =>
    skip_sound (fun hc => by simp [hc, constant?] at hv) (Sound.pure fun _ => .literal hv)
  split
  case h_1 hkind => exact constant (by rw [hkind]; rfl)
  case h_2 hkind => exact constant (by rw [hkind]; rfl)
  case h_3 hkind => exact constant (by rw [hkind]; rfl)
  case h_4 hkind => exact constant (by rw [hkind]; rfl)
  case h_5 hkind => exact constant (by rw [hkind]; rfl)
  case h_6 hkind =>
    refine skip_sound (by simp [hkind]) (expect_sound fun dot hdot =>
      expectName_sound fun method hmethod => reference_sound fun id => Sound.pure ?_)
    rintro - rfl
    exact .super hkind hdot hmethod
  case h_7 hkind =>
    refine skip_sound (by simp [hkind]) (reference_sound fun id => Sound.pure ?_)
    rintro - rfl
    exact .this hkind
  case h_8 hkind =>
    refine skip_sound (by simp [hkind]) (reference_sound fun id => Sound.pure ?_)
    rintro - rfl
    exact .ident hkind
  case h_9 hkind =>
    exact skip_sound (by simp [hkind]) ((he k).bind fun inner ts k₁ =>
      expect_sound fun right hright => Sound.pure fun _ hinner => .grouping hkind hinner hright)
  case h_10 =>
    exact fun s e s' _ h hno =>
      fail_sound (R := fun ts e k' _ => Expression .primary k ts e k') s e s' h hno

theorem arguments_sound (he : ∀ k, Derives k expression (Expression .assignment k)) :
    Derives k (arguments bound expression) fun ts given k' =>
      Arguments k ts given k' ∧ given.length ≤ maxItems :=
  parenthesized_sound he .none .first .next

theorem callSuffix_sound (he : ∀ k, Derives k expression (Expression .assignment k))
    (callee : Expr) : Derives k (callSuffix bound expression callee) fun ts o k' =>
      ∀ {k₀ before}, Expression .call k₀ before callee k →
        Expression .call k₀ (before ++ ts) (o.getD callee) k' := by
  refine accept_sound (fun left hleft => ?_) (accept_sound (fun dot hdot => ?_) ?_)
  · refine (arguments_sound he).bind fun given ts₁ k₁ => expect_sound fun right hright =>
      Sound.pure ?_
    rintro - ⟨hgiven, hlen⟩ k₀ before h
    exact .call h hleft hgiven hlen hright
  · exact expectName_sound fun name hname => Sound.pure fun _ _ _ h => .get h hdot hname
  · exact Sound.pure fun _ _ _ h => by simpa using h

theorem call_sound (he : ∀ k, Derives k expression (Expression .assignment k)) :
    Derives k (call bound expression) (Expression .call k) := by
  refine (primary_sound he).bind fun e ts k₁ => ?_
  refine (Sound.rounds (I := fun before e k' => Expression .call k before e k')
    (fun e k₂ => (callSuffix_sound he e).imp fun _ _ _ _ h _ => h) bound e k₁).imp ?_
  exact fun ts' e' k' _ h he => h ts (.noCall he)

theorem unary_sound (he : ∀ k, Derives k expression (Expression .assignment k)) :
    Derives k (unary bound expression) (Expression .unary k) := by
  -- the operators taken so far, last first, wait for an operand
  let I (before : List Token) (taken : List Token) (k' : Nat) : Prop :=
    ∀ {ts e k''}, Expression .unary k' ts e k'' →
      Expression .unary k (before ++ ts) (taken.foldl (fun e operator => .unary operator e) e) k''
  refine (Sound.rounds (I := I) (fun taken k₁ => ?_) bound [] k).bind fun taken ts k₁ => ?_
  · refine take?_sound (fun operator ho => Sound.pure ?_)
      (Sound.pure fun _ before hI ts e k'' h => by simpa using hI h)
    intro _ before hI ts e k'' h
    rw [List.append_assoc]
    exact hI (.unary (by simpa [unaryOperators, isUnaryOperator] using ho) h)
  · refine (call_sound he).bind fun operand ts' k₂ => Sound.pure fun _ h hI => ?_
    rw [List.append_nil]
    exact hI [] id (.noUnary h)

theorem leftChain_sound {c : Chain} {accepts : Token.Kind → Bool} {operand : Parser Expr}
    (ha : ∀ {kind}, accepts kind = true → kind ∈ c.operators)
    (ho : ∀ k, Derives k operand (Expression c.operand k)) :
    Derives k (leftChain bound accepts c.join operand) (Expression (.chain c) k) := by
  refine (ho k).bind fun e ts k₁ => ?_
  refine (Sound.rounds (I := fun before e k' => Expression (.chain c) k before e k')
    (fun left k₂ => ?_) bound e k₁).imp fun ts' e' k' _ h he => h ts (.operand he)
  refine take?_sound (fun operator hop => ?_) (Sound.pure fun _ before h => by simpa using h)
  exact (ho k₂).bind fun right ts' k₃ => Sound.pure fun _ hr before hl => by
    simpa using Expression.operation hl (ha hop) hr

theorem factor_sound (he : ∀ k, Derives k expression (Expression .assignment k)) :
    Derives k (factor bound expression) (Expression (.chain .factor) k) :=
  leftChain_sound (c := .factor) (by simp [isFactorOperator, Chain.operators])
    fun _ => unary_sound he

theorem term_sound (he : ∀ k, Derives k expression (Expression .assignment k)) :
    Derives k (term bound expression) (Expression (.chain .term) k) :=
  leftChain_sound (c := .term) (by simp [isTermOperator, Chain.operators])
    fun _ => factor_sound he

theorem comparison_sound (he : ∀ k, Derives k expression (Expression .assignment k)) :
    Derives k (comparison bound expression) (Expression (.chain .comparison) k) :=
  leftChain_sound (c := .comparison) (by simp [isComparisonOperator, Chain.operators, or_assoc])
    fun _ => term_sound he

theorem equality_sound (he : ∀ k, Derives k expression (Expression .assignment k)) :
    Derives k (equality bound expression) (Expression (.chain .equality) k) :=
  leftChain_sound (c := .equality) (by simp [isEqualityOperator, Chain.operators])
    fun _ => comparison_sound he

theorem conjunction_sound (he : ∀ k, Derives k expression (Expression .assignment k)) :
    Derives k (conjunction bound expression) (Expression (.chain .conjunction) k) :=
  leftChain_sound (c := .conjunction) (by simp [Chain.operators]) fun _ => equality_sound he

theorem disjunction_sound (he : ∀ k, Derives k expression (Expression .assignment k)) :
    Derives k (disjunction bound expression) (Expression (.chain .disjunction) k) :=
  leftChain_sound (c := .disjunction) (by simp [Chain.operators]) fun _ => conjunction_sound he

/-- An expression before an equals sign is made into a target only if it is one. -/
theorem assignTo_sound {target value : Expr} {equals : Token} :
    Derives k (assignTo target equals value) fun ts' e k' =>
      ∀ {k₀ k₁ before ts}, equals.kind = .symbol .equal →
        Expression (.chain .disjunction) k₀ before target k₁ →
        Expression .assignment k₁ ts value k →
        Expression .assignment k₀ (before ++ equals :: (ts ++ ts')) e k' := by
  unfold assignTo
  split
  · refine reference_sound fun id => Sound.pure ?_
    rintro - rfl k₀ k₁ before ts hequals ht hv
    obtain ⟨rfl, rfl, rfl, hname⟩ := targetShape ht
    simpa using Expression.assignName hname hequals hv
  · refine Sound.pure fun _ _ _ _ _ hequals ht hv => ?_
    obtain ⟨ts', dot, rfl, hobject, hdot, hname⟩ := targetShape ht
    simpa using Expression.assignField hobject hdot hname hequals hv
  · exact report_sound (Q := fun _ _ _ _ => True) (Sound.pure fun _ => trivial)

theorem assignment_sound (he : ∀ k, Derives k expression (Expression .assignment k)) :
    Derives k (assignment bound expression) (Expression .assignment k) := by
  refine (disjunction_sound he).bind fun target ts k₁ => ?_
  refine take?_sound (fun equals hequals => ?_) (Sound.pure fun _ h => ?_)
  · refine (he k₁).bind fun value ts' k₂ => assignTo_sound.imp fun ts'' e k' _ h hv ht => ?_
    exact h (by simpa using hequals) ht hv
  · rw [List.append_nil]
    exact .noAssignment h

end

theorem expression_sound : ∀ (bound k : Nat), Derives k (expression bound) (Expression .assignment k)
  | 0, _ => fail_sound
  | bound + 1, _ => assignment_sound (expression_sound bound)

/-! ## Statements -/

/-- Whether a statement may stand before these tokens: an open one takes any `else` that follows. -/
def NoElse (rest : List Token) : Prop := ∀ t ∈ rest.head?, t.kind ≠ .keyword .elseWord

/-- A statement with the tokens that are left after it. -/
def StatementBefore (k : Nat) (ts : List Token) (s : Stmt) (k' : Nat) (rest : List Token) : Prop :=
  ∃ isOpen, Statement isOpen k ts s k' ∧ (isOpen = true → NoElse rest)

theorem countingLoop_eq (start : Option Stmt) (condition increment : Option Expr) (body : Stmt) :
    countingLoop start condition increment body
      = Grammar.countingLoop start condition increment body := by
  cases start <;> cases increment <;> rfl

section

variable {bound : Nat}

theorem expressionUnless_sound {symbol : Symbol} :
    Derives k (expressionUnless bound symbol) (OptionalExpression k) :=
  nextIs_sound fun _ => Sound.ite (Sound.pure fun _ => .absent)
    ((expression_sound bound k).bind fun _ _ _ => Sound.pure fun _ he => by
      rw [List.append_nil]
      exact .present he)

theorem expressionStatement_sound :
    Derives k (expressionStatement bound) (ExpressionStatement k) :=
  (expression_sound bound k).bind fun _ _ _ => expect_sound fun _ hs =>
    Sound.pure fun _ he => .mk he hs

theorem printStatement_sound {word : Token} (hword : word.kind = .keyword .printWord) :
    Derives k (printStatement bound) fun ts s k' => Statement false k (word :: ts) s k' :=
  (expression_sound bound k).bind fun _ _ _ => expect_sound fun _ hs =>
    Sound.pure fun _ he => .print hword he hs

theorem returnStatement_sound {word : Token} (hword : word.kind = .keyword .returnWord) :
    Derives k (returnStatement bound word) fun ts s k' => Statement false k (word :: ts) s k' :=
  expressionUnless_sound.bind fun _ _ _ => expect_sound fun _ hs =>
    Sound.pure fun _ he => .giveBack hword he hs

theorem initialValue_sound : Derives k (initialValue bound) (Initializer k) :=
  accept_sound (fun _ hequals => (expression_sound bound k).bind fun _ _ _ =>
    Sound.pure fun _ he => by
      rw [List.append_nil]
      exact .present hequals he)
    (Sound.pure fun _ => .absent)

theorem variableDeclaration_sound {word : Token} (hword : word.kind = .keyword .varWord) :
    Derives k (variableDeclaration bound) fun ts s k' => Variable k (word :: ts) s k' :=
  expectName_sound fun _ hname => initialValue_sound.bind fun _ _ _ => expect_sound fun _ hs =>
    Sound.pure fun _ hvalue => .mk hword hname hvalue hs

theorem startClause_sound : Derives k (startClause bound) (Start k) := by
  refine accept_sound (fun semicolon hs => Sound.pure fun _ => .absent hs)
    (acceptWord_sound (fun word hword => ?_) ?_)
  · refine (variableDeclaration_sound hword).bind fun s ts k₁ => Sound.pure fun _ h => ?_
    rw [List.append_nil]
    exact .varDecl h
  · refine expressionStatement_sound.bind fun s ts k₁ => Sound.pure fun _ h => ?_
    rw [List.append_nil]
    exact .expression h

end

section

variable {bound : Nat} {statement : Parser Stmt} {declaration : Parser (Option Stmt)}

/-- The declarations of a block, up to the brace that closes it. -/
theorem block_sound (hd : ∀ k, Derives k declaration fun ts o k' =>
      ∃ s, o = some s ∧ Declaration k ts s k') :
    Derives k (block bound declaration) fun ts body k' =>
      ∃ ts' right, ts = ts' ++ [right] ∧ right.kind = .symbol .rightBrace ∧
        Declarations k ts' body k' := by
  refine (Sound.rounds (I := fun before taken k' => Declarations k before taken.reverse k')
    (fun taken k₁ => ?_) bound [] k).bind fun taken ts k₁ => ?_
  · refine nextIs_sound fun _ => atEnd_sound fun _ => Sound.ite
      (Sound.pure fun _ before h => by simpa using h) ((hd k₁).bind fun o ts k₂ => Sound.pure ?_)
    rintro - ⟨s, rfl, hs⟩ before h
    simpa using h.snoc hs
  · refine expect_sound fun right hright => Sound.pure fun _ h => ?_
    exact ⟨ts, right, rfl, hright, h [] .nil⟩

theorem elseBranch_sound
    (hs : ∀ k, Sound k statement fun ts s k' rest => StatementBefore k ts s k' rest) :
    Sound k (elseBranch statement) fun ts o k' rest =>
      match o with
      | none => ts = [] ∧ k' = k ∧ NoElse rest
      | some s => ∃ word ts', ts = word :: ts' ∧ word.kind = .keyword .elseWord ∧
          StatementBefore k ts' s k' rest := by
  refine acceptWord_sound_left (fun word hword => ?_) (Sound.pure fun _ h => ⟨rfl, rfl, h⟩)
  refine (hs k).bind fun s ts k₁ => Sound.pure fun _ h => ⟨word, ts, ?_, hword, h⟩
  rw [List.append_nil]

theorem ifStatement_sound {word : Token} (hword : word.kind = .keyword .ifWord)
    (hs : ∀ k, Sound k statement fun ts s k' rest => StatementBefore k ts s k' rest) :
    Sound k (ifStatement bound statement) fun ts s k' rest =>
      StatementBefore k (word :: ts) s k' rest := by
  refine expect_sound fun left hleft => (expression_sound bound k).bind fun c ts k₁ =>
    expect_sound fun right hright => (hs k₁).bind fun yes ts' k₂ =>
      (elseBranch_sound hs).bind fun o ts'' k₃ => Sound.pure ?_
  rintro rest hno ⟨isOpen, hyes, hshut⟩ hc
  cases o with
  | none =>
      obtain ⟨rfl, rfl, hrest⟩ := hno
      refine ⟨true, ?_, fun _ => hrest⟩
      simpa using Statement.ifThen hword hleft hc hright hyes
  | some no =>
      obtain ⟨otherwise, ts₃, rfl, hotherwise, isOpen', hno, hshut'⟩ := hno
      -- the branch before an `else` cannot be open
      cases isOpen with
      | true => exact absurd hotherwise (hshut rfl otherwise (by simp))
      | false =>
          refine ⟨isOpen', ?_, hshut'⟩
          simpa using Statement.ifElse hword hleft hc hright hyes hotherwise hno

theorem whileStatement_sound {word : Token} (hword : word.kind = .keyword .whileWord)
    (hs : ∀ k, Sound k statement fun ts s k' rest => StatementBefore k ts s k' rest) :
    Sound k (whileStatement bound statement) fun ts s k' rest =>
      StatementBefore k (word :: ts) s k' rest := by
  refine expect_sound fun left hleft => (expression_sound bound k).bind fun c ts k₁ =>
    expect_sound fun right hright => (hs k₁).bind fun body ts' k₂ => Sound.pure ?_
  rintro rest ⟨isOpen, hbody, hshut⟩ hc
  refine ⟨isOpen, ?_, hshut⟩
  simpa using Statement.whileLoop hword hleft hc hright hbody

theorem forStatement_sound {word : Token} (hword : word.kind = .keyword .forWord)
    (hs : ∀ k, Sound k statement fun ts s k' rest => StatementBefore k ts s k' rest) :
    Sound k (forStatement bound statement) fun ts s k' rest =>
      StatementBefore k (word :: ts) s k' rest := by
  refine expect_sound fun left hleft => startClause_sound.bind fun start ts₁ k₁ =>
    expressionUnless_sound.bind fun condition ts₂ k₂ => expect_sound fun semicolon hsemicolon =>
      expressionUnless_sound.bind fun increment ts₃ k₃ => expect_sound fun right hright =>
        (hs k₃).bind fun body ts₄ k₄ => Sound.pure ?_
  rintro rest ⟨isOpen, hbody, hshut⟩ hincrement hcondition hstart
  refine ⟨isOpen, ?_, hshut⟩
  rw [countingLoop_eq]
  simpa using
    Statement.forLoop hword hleft hstart hcondition hsemicolon hincrement hright hbody

theorem statementRule_sound
    (hs : ∀ k, Sound k statement fun ts s k' rest => StatementBefore k ts s k' rest)
    (hd : ∀ k, Derives k declaration fun ts o k' => ∃ s, o = some s ∧ Declaration k ts s k') :
    Sound k (statementRule bound statement declaration) fun ts s k' rest =>
      StatementBefore k ts s k' rest := by
  have closed {ts : List Token} {s : Stmt} {k' : Nat} {rest : List Token}
      (h : Statement false k ts s k') : StatementBefore k ts s k' rest :=
    ⟨false, h, fun h => Bool.noConfusion h⟩
  refine acceptWord_sound (fun _ hword => forStatement_sound hword hs) ?_
  refine acceptWord_sound (fun _ hword => ifStatement_sound hword hs) ?_
  refine acceptWord_sound (fun _ hword => (printStatement_sound hword).imp
    fun _ _ _ _ => closed) ?_
  refine keyword?_sound (fun _ hword => (returnStatement_sound hword).imp
    fun _ _ _ _ => closed) ?_
  refine acceptWord_sound (fun _ hword => whileStatement_sound hword hs) ?_
  refine accept_sound (fun left hleft => ?_) (expressionStatement_sound.imp
    fun _ _ _ _ h => closed (.expression h))
  refine (block_sound hd).bind fun body ts k₁ => Sound.pure ?_
  rintro - ⟨ts', right, rfl, hright, hbody⟩
  simpa using closed (.block hleft hbody hright)

theorem parameterName_sound : Derives k (expectName .parameter) fun ts name k' =>
    ts = [name] ∧ name.kind = .identifier ∧ k' = k := by
  unfold expectName
  refine take?_sound (fun name hname => Sound.pure fun _ => ⟨rfl, ?_, rfl⟩) fail_sound
  simpa using hname

theorem parameters_sound : Derives k (parameters bound) fun ts params k' =>
    (Parameters ts params ∧ k' = k) ∧ params.length ≤ maxItems := by
  let Items (k : Nat) (ts names : List Token) (k' : Nat) : Prop := Parameters ts names ∧ k' = k
  show Derives k (parenthesized bound (expectName .parameter) .tooManyParameters)
    fun ts params k' => Items k ts params k' ∧ params.length ≤ maxItems
  refine parenthesized_sound (fun _ => parameterName_sound) ⟨.none, rfl⟩ ?_ ?_
  · rintro k k' ts name ⟨rfl, hname, rfl⟩
    exact ⟨.first hname, rfl⟩
  · rintro k k₁ k' ts ts' comma names name ⟨hnames, rfl⟩ hne hcomma ⟨rfl, hname, rfl⟩
    exact ⟨.next hnames hne hcomma hname, rfl⟩

theorem function_sound {kind : CallableKind}
    (hd : ∀ k, Derives k declaration fun ts o k' => ∃ s, o = some s ∧ Declaration k ts s k') :
    Derives k (function bound kind declaration) (Callable k) := by
  refine expectName_sound fun name hname => expect_sound fun left hleft =>
    parameters_sound.bind fun params ts k₁ => expect_sound fun right hright =>
      expect_sound fun leftBrace hleftBrace => (block_sound hd).bind fun body ts' k₂ =>
        Sound.pure ?_
  rintro - ⟨ts'', rightBrace, rfl, hrightBrace, hbody⟩ ⟨⟨hparams, rfl⟩, hlen⟩
  simpa using Callable.mk hname hleft hparams hlen hright hleftBrace hbody hrightBrace

theorem superclassClause_sound : Derives k superclassClause (Superclass k) := by
  refine accept_sound (fun less hless => expectName_sound fun name hname =>
    reference_sound fun id => Sound.pure ?_) (Sound.pure fun _ => .absent)
  rintro - rfl
  exact .present hless hname

theorem classDeclaration_sound {word : Token} (hword : word.kind = .keyword .classWord)
    (hd : ∀ k, Derives k declaration fun ts o k' => ∃ s, o = some s ∧ Declaration k ts s k') :
    Derives k (classDeclaration bound declaration) fun ts s k' =>
      Declaration k (word :: ts) s k' := by
  refine expectName_sound fun name hname => superclassClause_sound.bind fun superclass ts k₁ =>
    expect_sound fun left hleft => ?_
  refine (Sound.rounds (I := fun before taken k' => Callables k₁ before taken.reverse k')
    (fun taken k₂ => ?_) bound [] k₁).bind fun taken ts' k₂ => ?_
  · refine nextIs_sound fun _ => atEnd_sound fun _ => Sound.ite
      (Sound.pure fun _ before h => by simpa using h)
      ((function_sound hd).bind fun f ts k₃ => Sound.pure fun _ hf before h => ?_)
    simpa using h.snoc hf
  · refine expect_sound fun right hright => Sound.pure fun _ h hsuperclass => ?_
    simpa using Declaration.classDecl hword hname hsuperclass hleft (h [] .nil) hright

theorem declarationRule_sound
    (hs : ∀ k, Sound k statement fun ts s k' rest => StatementBefore k ts s k' rest)
    (hd : ∀ k, Derives k declaration fun ts o k' => ∃ s, o = some s ∧ Declaration k ts s k') :
    Derives k (declarationRule bound statement declaration) (Declaration k) := by
  refine acceptWord_sound (fun _ hword => classDeclaration_sound hword hd) ?_
  refine acceptWord_sound (fun word hword => ?_) ?_
  · refine (function_sound hd).bind fun f ts k₁ => Sound.pure fun _ hf => ?_
    rw [List.append_nil]
    exact .functionDecl hword hf
  · refine acceptWord_sound (fun _ hword => (variableDeclaration_sound hword).imp
      fun _ _ _ _ => .varDecl) ?_
    refine (statementRule_sound hs hd).imp ?_
    rintro ts s k' rest ⟨isOpen, h, -⟩
    exact .statement h

/-- A reader that recovers has recorded the fault, so without a fault it has read a declaration. -/
theorem recovering_sound {rule : Parser Stmt} {D : List Token → Stmt → Nat → Prop}
    (h : Derives k rule D) :
    Derives k (recovering rule) fun ts o k' => ∃ s, o = some s ∧ D ts s k' := by
  intro s o s' hs hno
  unfold recovering at hs
  split at hs
  · next stmt s₁ hrule =>
    injection hs with ho hs
    subst ho; subst hs
    obtain ⟨hf, hD⟩ := h s stmt s₁ hrule hno
    refine ⟨hf, fun hk => ?_⟩
    obtain ⟨ts, hts, hstmt⟩ := hD hk
    exact ⟨ts, hts, stmt, rfl, hstmt⟩
  · injection hs with _ hs
    subst hs
    exact absurd hno (by simp [State.synchronize])

end

mutual

theorem statement_sound : ∀ (bound k : Nat),
    Sound k (statement bound) fun ts s k' rest => StatementBefore k ts s k' rest
  | 0, _ => fail_sound
  | bound + 1, _ => statementRule_sound (statement_sound bound) (declaration_sound bound)

theorem declaration_sound : ∀ (bound k : Nat), Derives k (declaration bound) fun ts o k' =>
    ∃ s, o = some s ∧ Declaration k ts s k'
  | 0, _ => recovering_sound fail_sound
  | bound + 1, _ =>
      recovering_sound (declarationRule_sound (statement_sound bound) (declaration_sound bound))

end

/-! ## Whole programs -/

/-- One round of reading a program. -/
def nextDeclaration (declaration : Parser (Option Stmt)) (taken : List Stmt) :
    Parser (Option (List Stmt)) := do
  if ← atEnd then
    return none
  return some ((← declaration).toList ++ taken)

theorem program_eq (bound : Nat) : program bound =
    rounds (nextDeclaration (declaration bound)) bound [] >>= fun taken => pure taken.reverse :=
  rfl

theorem nextDeclaration_sound (bound k₀ : Nat) (taken : List Stmt) (k : Nat) :
    Derives k (nextDeclaration (declaration bound) taken) fun ts o k' =>
      ∀ before, Declarations k₀ before taken.reverse k →
        Declarations k₀ (before ++ ts) (o.getD taken).reverse k' := by
  refine atEnd_sound fun _ => Sound.ite (Sound.pure fun _ before h => by simpa using h)
    ((declaration_sound bound k).bind fun o ts k₁ => Sound.pure ?_)
  rintro - ⟨s, rfl, hs⟩ before h
  simpa using h.snoc hs

theorem program_sound (bound k : Nat) : Derives k (program bound) (Program k) := by
  rw [program_eq]
  refine (Sound.rounds (nextDeclaration_sound bound k) bound [] k).bind fun taken ts k₁ =>
    Sound.pure fun _ h => ?_
  rw [List.append_nil]
  exact h [] .nil

/-- A program that was read without a fault was read to its end, since every declaration takes a
token. -/
theorem nextDeclaration_atEnd {bound : Nat} : ∀ {n : Nat} {taken taken' : List Stmt} {s s' : State},
    rounds (nextDeclaration (declaration bound)) n taken s = .ok taken' s' →
    s'.faults = #[] → s.rest.length ≤ n → s'.rest = []
  | 0, _, _, s, s', h, _, hn => by
      obtain ⟨-, rfl⟩ := pure_eq_ok.mp h
      exact List.length_eq_zero_iff.mp (Nat.le_zero.mp hn)
  | n + 1, taken, taken', s, s', h, hno, hn => by
      obtain ⟨o, s₁, hstep, hrest⟩ := bind_eq_ok.mp h
      obtain ⟨b, s₂, hend, hstep⟩ := bind_eq_ok.mp hstep
      obtain ⟨rfl, rfl⟩ : s.rest.isEmpty = b ∧ s = s₂ := by simpa [atEnd] using hend
      cases hs : s.rest with
      | nil =>
          rw [hs] at hstep
          obtain ⟨rfl, rfl⟩ := pure_eq_ok.mp hstep
          obtain ⟨-, rfl⟩ := pure_eq_ok.mp hrest
          exact hs
      | cons t ts =>
          rw [hs] at hstep
          obtain ⟨d, s₂, hd, hstep⟩ := bind_eq_ok.mp hstep
          obtain ⟨rfl, rfl⟩ := pure_eq_ok.mp hstep
          obtain ⟨hno₂, -⟩ := Sound.rounds (nextDeclaration_sound bound 0) n _ 0 s₂ taken' s' hrest hno
          obtain ⟨ts', hts, _, -, hdeclaration⟩ := (declaration_sound bound _ s d s₂ hd hno₂).2 rfl
          obtain ⟨t', ts'', rfl, -⟩ := hdeclaration.first
          refine nextDeclaration_atEnd hrest hno ?_
          rw [hts, List.length_append, List.length_cons] at hn
          omega

/-- A program that is read without a fault is a derivation of all the tokens. -/
theorem program_derives {s s' : State} {P : List Stmt}
    (h : program s.rest.length s = .ok P s') (hno : s'.faults = #[]) :
    Program s.nextId s.rest P s'.nextId := by
  obtain ⟨-, hP⟩ := program_sound s.rest.length s.nextId s P s' h hno
  obtain ⟨ts, hts, hP⟩ := hP rfl
  rw [program_eq] at h
  obtain ⟨taken, s₁, hloop, hpure⟩ := bind_eq_ok.mp h
  obtain ⟨-, rfl⟩ := pure_eq_ok.mp hpure
  rw [nextDeclaration_atEnd hloop hno (Nat.le_refl _), List.append_nil] at hts
  exact hts ▸ hP

end Lox.Parser
