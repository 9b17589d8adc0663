import Lox.Proofs.Occurrences.Walk
import Lox.Proofs.Scopes.Names
import Lox.Proofs.Sessions.Settled

/-!
# Recorded distances

The distance that is recorded for a use is its lexical address: the number of scopes to leave to reach the
innermost that declares the name before the use. Every reference of a program is one of its uses, and as
different uses have different numbers, no use takes the distance of another, whatever else is wrong with
the program.
-/

namespace Lox

/-! ## The uses among the occurrences -/

/-- The use that an occurrence is, if it is one. -/
def Occurrence.use? (o : Occurrence) : Option Use :=
  match o.node with
  | .use u => some u
  | _ => none

theorem Occurrence.reference?_eq (o : Occurrence) : o.reference? = o.use?.map Use.reference := by
  obtain ⟨node, A, pending⟩ := o
  cases node <;> rfl

theorem Expr.uses_occurrences (A : Surroundings) (pending : Option Pending) (e : Expr) :
    (e.occurrences A pending).filterMap Occurrence.use? = e.uses := by
  rw [Expr.occurrences, List.filterMap_map]
  exact List.filterMap_some

theorem Expr.fst_usesAt (site : Site) (e : Expr) : (e.usesAt site).map Prod.fst = e.uses := by
  rw [Expr.usesAt, List.map_map]
  exact List.map_id _

theorem Expr.uses_optional (A : Surroundings) (pending : Option Pending) (site : Site)
    (value : Option Expr) :
    (value.elim [] (Expr.occurrences A pending)).filterMap Occurrence.use?
      = (value.elim [] (Expr.usesAt site)).map Prod.fst := by
  cases value with
  | none => rfl
  | some e => exact (e.uses_occurrences A pending).trans (e.fst_usesAt site).symm

theorem Function.no_use_params (A : Surroundings) (f : Function) (isMethod : Bool) :
    ∀ before ps : List Token,
      (Function.paramOccurrences A f isMethod before ps).filterMap Occurrence.use? = []
  | _, [] => rfl
  | before, p :: ps => Function.no_use_params A f isMethod (before ++ [p]) ps

theorem Stmt.uses_superclassOccurrences (A : Surroundings) (site : Site) (name : Token)
    (superclass : Option Reference) :
    (Stmt.superclassOccurrences A name superclass).filterMap Occurrence.use?
      = (superclass.toList.map fun use => ((⟨.read, use⟩ : Use), site)).map Prod.fst := by
  cases superclass <;> rfl

mutual

/-- The uses among the occurrences are all uses there are, in the same order. -/
theorem Stmt.uses_occurrences : ∀ (A : Surroundings) (site : Site) (s : Stmt),
    (s.occurrences A).filterMap Occurrence.use? = (s.uses site).map Prod.fst
  | A, site, .expression e => (e.uses_occurrences A none).trans (e.fst_usesAt site).symm
  | A, site, .print e => (e.uses_occurrences A none).trans (e.fst_usesAt site).symm
  | A, site, .variableDecl name value => Expr.uses_optional _ _ (site.declare name.lexeme) value
  | A, site, .block body => Stmt.uses_occurrencesAll A.inBlock _ body
  | A, site, .conditional condition yes none => by
      rw [Stmt.occurrences, Stmt.uses, List.filterMap_append, List.map_append,
        condition.uses_occurrences, condition.fst_usesAt, Stmt.uses_occurrences A site yes]
  | A, site, .conditional condition yes (some no) => by
      rw [Stmt.occurrences, Stmt.uses, List.filterMap_append, List.filterMap_append, List.map_append,
        List.map_append, condition.uses_occurrences, condition.fst_usesAt,
        Stmt.uses_occurrences A site yes, Stmt.uses_occurrences A site no]
  | A, site, .loop condition body => by
      rw [Stmt.occurrences, Stmt.uses, List.filterMap_append, List.map_append,
        condition.uses_occurrences, condition.fst_usesAt, Stmt.uses_occurrences A site body]
  | A, site, .functionDecl declared =>
      Function.uses_occurrences _ (site.define declared.name.lexeme) false declared
  | A, site, .giveBack _ value => Expr.uses_optional _ _ site value
  | A, site, .classDecl name superclass methods => by
      rw [Stmt.occurrences, Stmt.uses, List.map_append,
        ← Stmt.uses_superclassOccurrences (A.beginning (.classDecl name superclass methods)) site name,
        ← Function.uses_occurrencesAll ((A.beginning (.classDecl name superclass methods)).inClass
          superclass)]
      exact List.filterMap_append

theorem Stmt.uses_occurrencesAll : ∀ (A : Surroundings) (site : Site) (ss : List Stmt),
    (Stmt.occurrencesAll A ss).filterMap Occurrence.use? = (Stmt.usesAll site ss).map Prod.fst
  | _, _, [] => rfl
  | A, site, s :: ss => by
      rw [Stmt.occurrencesAll, Stmt.usesAll, List.filterMap_append, List.map_append,
        Stmt.uses_occurrences A site s, Stmt.uses_occurrencesAll (A.beginning s) (site.after s) ss]

theorem Function.uses_occurrences : ∀ (A : Surroundings) (site : Site) (isMethod : Bool)
    (f : Function), (f.occurrences A isMethod).filterMap Occurrence.use? = (f.uses site).map Prod.fst
  | A, site, isMethod, .mk name params body => by
      rw [Function.occurrences, List.filterMap_append, Function.no_use_params, List.nil_append]
      exact Stmt.uses_occurrencesAll _ (site.inFunction (.mk name params body)) body

theorem Function.uses_occurrencesAll : ∀ (A : Surroundings) (site : Site) (fs : List Function),
    (Function.occurrencesAll A fs).filterMap Occurrence.use?
      = (Function.usesAll site fs).map Prod.fst
  | _, _, [] => rfl
  | A, site, f :: fs => by
      rw [Function.occurrencesAll, Function.usesAll, List.filterMap_append, List.map_append,
        Function.uses_occurrences A (site.inReceiver f) true f,
        Function.uses_occurrencesAll A site fs]

end

/-- The uses of a program are all its references. -/
theorem references_programOccurrences (P : List Stmt) :
    (programOccurrences P).filterMap Occurrence.reference? = Stmt.referencesAll P := by
  rw [← Stmt.references_usesAll [] P, funext Occurrence.reference?_eq, ← List.map_filterMap,
    programOccurrences, Stmt.uses_occurrencesAll [] [] P, List.map_map]
  rfl

/-! ## Where the receiver is -/

/-- Only scopes of classes have `this`. -/
def Surroundings.Proper (A : Surroundings) : Prop :=
  ∀ e ∈ A, "this" ∈ e.names → e.inherits? ≠ none

namespace Surroundings.Proper

variable {A : Surroundings}

theorem cons (h : A.Proper) {e : Enclosure} (he : "this" ∈ e.names → e.inherits? ≠ none) :
    Proper (e :: A) := by
  intro e' he'
  rcases List.mem_cons.mp he' with rfl | he'
  · exact he
  · exact h e' he'

theorem beginning (h : A.Proper) {s : Stmt} (hs : ∀ t ∈ s.names, Plain t.lexeme) :
    (A.beginning s).Proper := by
  cases A with
  | nil => exact h
  | cons e outer =>
      refine cons (fun e' he' => h e' (List.mem_cons_of_mem _ he')) fun hthis => ?_
      have hhead := h e (List.mem_cons_self ..)
      cases hname : Scoping.declaredName? s with
      | none =>
          rw [Enclosure.names_pass hname] at hthis
          exact hhead hthis
      | some name =>
          rw [Enclosure.names_begin hname] at hthis
          rcases List.mem_cons.mp hthis with heq | hthis
          · exact absurd heq.symm (hs name (Stmt.declaredName_mem hname)).1
          · exact hhead hthis

theorem inBlock (h : A.Proper) : A.inBlock.Proper :=
  h.cons fun hthis => nomatch hthis

theorem inFunction (h : A.Proper) (f : Function) (isMethod : Bool) {params : List Token}
    (hparams : ∀ t ∈ params, Plain t.lexeme) : (A.inFunction f isMethod params).Proper := by
  refine h.cons fun hthis => ?_
  obtain ⟨t, ht, hlexeme⟩ := List.mem_map.mp hthis
  exact absurd hlexeme (hparams t ht).1

theorem inClass (h : A.Proper) (superclass : Option Reference) : (A.inClass superclass).Proper := by
  cases superclass with
  | none => exact h.cons fun _ => Option.some_ne_none _
  | some use => exact (h.cons (e := ⟨.parent, []⟩) (by decide)).cons fun _ => Option.some_ne_none _

/-- Outside of classes nothing is called `this`. -/
theorem no_receiver (h : A.Proper) (hno : A.inherits? = none) : A.addressOf? "this" = none := by
  rw [addressOf?_eq_none_iff]
  intro e he hthis
  rw [inherits?, List.findSome?_eq_none_iff] at hno
  exact h e he hthis (hno e he)

end Surroundings.Proper

theorem Expr.occurrences_proper {A : Surroundings} (h : A.Proper) (pending : Option Pending)
    (value : Option Expr) : ∀ o ∈ value.elim [] (Expr.occurrences A pending), o.around.Proper := by
  cases value with
  | none => exact fun o ho => nomatch ho
  | some e =>
      intro o ho
      obtain ⟨u, -, rfl⟩ := List.mem_map.mp ho
      exact h

theorem Function.params_proper {A : Surroundings} (h : A.Proper) (f : Function) (isMethod : Bool) :
    ∀ {before ps : List Token}, (∀ t ∈ before ++ ps, Plain t.lexeme) →
      ∀ o ∈ Function.paramOccurrences A f isMethod before ps, o.around.Proper
  | _, [], _, _, ho => nomatch ho
  | before, p :: ps, hplain, o, ho => by
      rcases List.mem_cons.mp ho with rfl | ho
      · exact h.inFunction f isMethod fun t ht => hplain t (List.mem_append_left _ ht)
      · refine params_proper h f isMethod (fun t ht => hplain t ?_) o ho
        rwa [List.append_assoc] at ht

theorem Stmt.superclass_proper {A : Surroundings} (h : A.Proper) (name : Token)
    (superclass : Option Reference) :
    ∀ o ∈ Stmt.superclassOccurrences A name superclass, o.around.Proper := by
  cases superclass with
  | none => exact fun o ho => nomatch ho
  | some use =>
      intro o ho
      rcases List.mem_cons.mp ho with rfl | ho
      · exact h
      · rw [List.mem_singleton.mp ho]
        exact h

mutual

theorem Stmt.occurrences_proper : ∀ {A : Surroundings} {s : Stmt}, A.Proper →
    (∀ t ∈ s.names, Plain t.lexeme) → ∀ o ∈ s.occurrences A, o.around.Proper
  | _, .expression e, h, _, o, ho => Expr.occurrences_proper h none (some e) o ho
  | _, .print e, h, _, o, ho => Expr.occurrences_proper h none (some e) o ho
  | _, .variableDecl name value, h, hplain, o, ho => by
      rcases List.mem_cons.mp ho with rfl | ho
      · exact h
      · exact Expr.occurrences_proper (h.beginning hplain) _ value o ho
  | _, .block body, h, hplain, o, ho => Stmt.occurrencesAll_proper h.inBlock hplain o ho
  | _, .conditional condition yes none, h, hplain, o, ho => by
      rcases List.mem_append.mp ho with ho | ho
      · exact Expr.occurrences_proper h none (some condition) o ho
      · exact Stmt.occurrences_proper (s := yes) h hplain o ho
  | _, .conditional condition yes (some no), h, hplain, o, ho => by
      rcases List.mem_append.mp ho with ho | ho
      · exact Expr.occurrences_proper h none (some condition) o ho
      rcases List.mem_append.mp ho with ho | ho
      · exact Stmt.occurrences_proper h (fun t ht => hplain t (List.mem_append_left _ ht)) o ho
      · exact Stmt.occurrences_proper h (fun t ht => hplain t (List.mem_append_right _ ht)) o ho
  | _, .loop condition body, h, hplain, o, ho => by
      rcases List.mem_append.mp ho with ho | ho
      · exact Expr.occurrences_proper h none (some condition) o ho
      · exact Stmt.occurrences_proper (s := body) h hplain o ho
  | _, .functionDecl declared, h, hplain, o, ho => by
      rcases List.mem_cons.mp ho with rfl | ho
      · exact h
      · exact Function.occurrences_proper (h.beginning hplain) hplain o ho
  | _, .giveBack keyword value, h, _, o, ho => by
      rcases List.mem_cons.mp ho with rfl | ho
      · exact h
      · exact Expr.occurrences_proper h none value o ho
  | _, .classDecl name superclass methods, h, hplain, o, ho => by
      have hinner := h.beginning (s := .classDecl name superclass methods) hplain
      rcases List.mem_cons.mp ho with rfl | ho
      · exact h
      rcases List.mem_append.mp ho with ho | ho
      · exact Stmt.superclass_proper hinner name superclass o ho
      · exact Function.occurrencesAll_proper (hinner.inClass superclass)
          (fun t ht => hplain t (List.mem_cons_of_mem _ ht)) o ho

theorem Stmt.occurrencesAll_proper : ∀ {A : Surroundings} {ss : List Stmt}, A.Proper →
    (∀ t ∈ Stmt.namesAll ss, Plain t.lexeme) → ∀ o ∈ Stmt.occurrencesAll A ss, o.around.Proper
  | _, [], _, _, _, ho => nomatch ho
  | _, s :: ss, h, hplain, o, ho => by
      have hfirst : ∀ t ∈ s.names, Plain t.lexeme :=
        fun t ht => hplain t (List.mem_append_left _ ht)
      rcases List.mem_append.mp ho with ho | ho
      · exact Stmt.occurrences_proper h hfirst o ho
      · exact Stmt.occurrencesAll_proper (h.beginning hfirst)
          (fun t ht => hplain t (List.mem_append_right _ ht)) o ho

theorem Function.occurrences_proper : ∀ {A : Surroundings} {isMethod : Bool} {f : Function},
    A.Proper → (∀ t ∈ f.names, Plain t.lexeme) → ∀ o ∈ f.occurrences A isMethod, o.around.Proper
  | _, isMethod, .mk name params body, h, hplain, o, ho => by
      have hparams : ∀ t ∈ params, Plain t.lexeme :=
        fun t ht => hplain t (List.mem_cons_of_mem _ (List.mem_append_left _ ht))
      have hbody : ∀ t ∈ Stmt.namesAll body, Plain t.lexeme :=
        fun t ht => hplain t (List.mem_cons_of_mem _ (List.mem_append_right _ ht))
      rcases List.mem_append.mp ho with ho | ho
      · exact Function.params_proper h (.mk name params body) isMethod hparams o ho
      · exact Stmt.occurrencesAll_proper (h.inFunction (.mk name params body) isMethod hparams) hbody
          o ho

theorem Function.occurrencesAll_proper : ∀ {A : Surroundings} {fs : List Function}, A.Proper →
    (∀ t ∈ Function.namesAll fs, Plain t.lexeme) →
      ∀ o ∈ Function.occurrencesAll A fs, o.around.Proper
  | _, [], _, _, _, ho => nomatch ho
  | _, f :: fs, h, hplain, o, ho => by
      rcases List.mem_append.mp ho with ho | ho
      · exact Function.occurrences_proper h (fun t ht => hplain t (List.mem_append_left _ ht)) o ho
      · exact Function.occurrencesAll_proper h (fun t ht => hplain t (List.mem_append_right _ ht)) o ho

end

/-! ## What is recorded -/

namespace Occurrence

variable {o : Occurrence} {u : Use}

/-- The address of a use is that of its name, which for the receiver is `this`. -/
theorem address?_eq (h : o.around.Proper) (hu : o.use? = some u) (hspelled : u.Spelled) :
    o.address? = (o.around.addressOf? u.name).map (u.reference.id, ·) := by
  obtain ⟨node, A, pending⟩ := o
  cases node with
  | use u' =>
      cases hu
      obtain ⟨kind, use⟩ := u
      cases kind with
      | this =>
          unfold address?
          cases hinherits : A.inherits? with
          | none =>
              have hname : Use.name ⟨.this, use⟩ = "this" := hspelled
              simp only [hname, h.no_receiver hinherits]
              rfl
          | some inherits =>
              simp only
              rfl
      | _ => rfl
  | _ => exact nomatch hu

/-- Only uses have addresses, under their own numbers. -/
theorem number_of_address? (o : Occurrence) (entry : Nat × Nat) (h : o.address? = some entry) :
    o.reference?.map Reference.id = some entry.1 := by
  obtain ⟨node, A, pending⟩ := o
  cases node with
  | use u =>
      refine congrArg some ?_
      obtain ⟨kind, use⟩ := u
      cases kind with
      | this =>
          unfold address? at h
          cases hinherits : A.inherits? with
          | none => simp [hinherits] at h
          | some inherits =>
              simp only [hinherits] at h
              obtain ⟨_, -, heq⟩ := Option.map_eq_some_iff.mp h
              exact congrArg Prod.fst heq
      | _ =>
          obtain ⟨_, -, heq⟩ := Option.map_eq_some_iff.mp h
          exact congrArg Prod.fst heq
  | _ => exact nomatch h

end Occurrence

/-- **The recorded distance is the lexical address.** Whatever is wrong with a program that has been read,
each of its references is one use, in surroundings of its own. The distance recorded for it is the number
of scopes to leave to reach the innermost that declares its name before it, and nothing is recorded exactly
if none does. Names are to be spelled as names, and nothing recorded yet for the numbers from `k` on. All
tokens of a source are so spelled (`Source.tokens_spelled`), and nothing is recorded for its next numbers in
any session that comes about (`Session.Reached.settled`). -/
theorem recorded_distance_is_lexical {tokens : List Token} {k next : Nat} {P : List Stmt}
    (hread : parseProgram tokens k = ⟨.ok P, next⟩) (hspelled : ∀ t ∈ tokens, Source.Spelled t)
    {st : State} (hnew : ∀ i, k ≤ i → st.addresses[i]? = none) :
    (programOccurrences P).filterMap Occurrence.reference? = Stmt.referencesAll P ∧
      ∀ o ∈ programOccurrences P, ∀ u, o.node = .use u →
        let recorded := (st.noteAddresses (Scoping.ofProgram P).addresses).addresses[u.reference.id]?
        (∀ distance, recorded = some distance ↔ o.around.DeclaresAt u.name distance) ∧
          (recorded = none ↔ ∀ e ∈ o.around, u.name ∉ e.names) := by
  refine ⟨references_programOccurrences P, fun o ho u hu => ?_⟩
  have hderived := program_of_tokens hread
  have hspelled' : ∀ t ∈ tokens.takeWhile (·.kind ≠ .eof), Source.Spelled t :=
    fun t ht => hspelled t ((List.takeWhile_prefix _).mem ht)
  have htaken := hderived.taken []
  have hproper : o.around.Proper :=
    Stmt.occurrencesAll_proper (A := []) (fun e he => nomatch he)
      (fun t ht => (hspelled' t (htaken.names t ht).1).plain (htaken.names t ht).2) o ho
  have huse : o.use? = some u := by
    rw [Occurrence.use?, hu]
  have hspelledUse : u.Spelled := by
    have hmem : u ∈ (Stmt.usesAll [] P).map Prod.fst := by
      rw [← Stmt.uses_occurrencesAll []]
      exact List.mem_filterMap.mpr ⟨o, ho, huse⟩
    obtain ⟨p, hp, rfl⟩ := List.mem_map.mp hmem
    exact (htaken.uses p hp).spelled hspelled'
  have hnumbered : Numbered k next ((programOccurrences P).filterMap Occurrence.reference?) := by
    rw [references_programOccurrences]
    exact hderived.numbered
  have hreference : o.reference? = some u.reference := by
    rw [Occurrence.reference?_eq, huse, Option.map_some]
  have hbounded := hnumbered.bounded u.reference (List.mem_filterMap.mpr ⟨o, ho, hreference⟩)
  have hnodup := hnumbered.nodup
  rw [List.map_filterMap] at hnodup
  rw [Scoping.ofProgram_eq]
  have hrecorded : ∀ distance,
      (st.noteAddresses (Scoping.Findings.ofAll (programOccurrences P)).addresses).addresses[
        u.reference.id]? = some distance ↔ o.around.addressOf? u.name = some distance := by
    intro distance
    rw [Scoping.Findings.ofAll, State.noteAddresses_entries Occurrence.number_of_address? hnodup ho
      (congrArg (Option.map Reference.id) hreference) (hnew _ hbounded.1),
      Occurrence.address?_eq hproper huse hspelledUse, Option.map_eq_some_iff]
    simp
  refine ⟨fun distance => (hrecorded distance).trans Surroundings.addressOf?_eq_some_iff, ?_⟩
  rw [← Surroundings.addressOf?_eq_none_iff, Option.eq_none_iff_forall_ne_some,
    Option.eq_none_iff_forall_ne_some]
  exact forall_congr' fun distance => not_congr (hrecorded distance)

/-- In a program with a fault, a variable that is read in its own initial value is still found in its own
scope, and not in the scope around that one. -/
theorem recorded_distance_is_lexical_rejected :
    let a : Token := ⟨.identifier, "a", 1⟩
    let P : List Stmt :=
      [.block [.variableDecl a none, .block [.variableDecl a (some (.ident ⟨0, a⟩))]]]
    parseProgram (Source.tokens "\x7b var a; \x7b var a = a; \x7d \x7d") 0 = ⟨.ok P, 1⟩ ∧
      (Scoping.ofProgram P).faults ≠ [] ∧
      ((Session.fresh .unlimited ⟨0⟩).state.noteAddresses (Scoping.ofProgram P).addresses).addresses[0]?
        = some 0 := by
  intro a P
  have hread : parseProgram (Source.tokens "\x7b var a; \x7b var a = a; \x7d \x7d") 0
      = ⟨.ok P, 1⟩ := by
    cbv
  have hnew : ∀ i, 0 ≤ i → (Session.fresh .unlimited ⟨0⟩).state.addresses[i]? = none :=
    (Session.Settled.fresh .unlimited ⟨0⟩).addresses
  obtain ⟨-, hrecorded⟩ := recorded_distance_is_lexical hread (Source.tokens_spelled _) hnew
  let outer : Surroundings := [⟨.block, [.variableDecl a none]⟩]
  let read : Occurrence :=
    { node := .use ⟨.read, ⟨0, a⟩⟩
      around := ⟨.block, [.variableDecl a (some (.ident ⟨0, a⟩))]⟩ :: outer
      pending := some ⟨a, ⟨.block, []⟩ :: outer⟩ }
  have hmem : read ∈ programOccurrences P := List.mem_of_getElem? (i := 2) rfl
  refine ⟨hread, by decide, ((hrecorded read hmem _ rfl).1 0).mpr ⟨⟨_, rfl, ?_⟩, fun i hi => ?_⟩⟩
  · decide
  · exact absurd hi (Nat.not_lt_zero i)

end Lox
