import Codemod.Syntax.Parser.Basic

/-!
# Codemod.Proofs.Syntax.Parser.Yields

What can be said of a parser that succeeds.

`Yields p Q s` says that wherever `p` succeeds from `s`, its answer and the state that it leaves are
as `Q` says. The elementary steps have one equation each, so that a parser written with them can be
unfolded up to the parsers it calls. Going on to the next token never fails: `State.next` is the
state after it. `Answers p S` is about the answer alone, from whatever state the parser runs.
-/

namespace Codemod

namespace Parser

/-- Where the parser succeeds from `s`, its answer and the state it leaves are as `Q` says. -/
def Yields {α : Type} (p : Parser α) (Q : α → State → Prop) (s : State) : Prop :=
  ∀ a t, p s = .ok (a, t) → Q a t

/-- What is left to show once a parser has run, when `f` goes on with its answer. -/
def Then {α β : Type} (f : α → Parser β) (Q : β → State → Prop) (a : α) (s : State) : Prop :=
  Yields (f a) Q s

namespace State

/-- The state with a reading as its current token. -/
def taking (s : State) (r : Reading) : State :=
  { s with
    token := r.token
    here := r.here
    rest := r.rest
    tokenFault := s.tokenFault <|> r.fault
    comment := s.comment <|> r.comment }

/-- The state past the current token, with the next one read in the given way. -/
def past (reader : Nat → Text → Reading) (s : State) : State :=
  { s with lastStop := s.token.span.stop }.taking (reader s.token.span.stop s.rest)

/-- The state at the next token. -/
def next (s : State) : State :=
  s.past Lexer.read

/-- The state with the current token read again. -/
def again (reader : Token → Text → Reading) (s : State) : State :=
  s.taking (reader s.token s.here)

/-- The state with a fault noted. -/
def noting (offset : Nat) (s : State) : State :=
  { s with grammarFault := s.grammarFault <|> some offset }

/-- The state in another scope. -/
def inScope (scope : Scope) (s : State) : State :=
  { s with scope }

end State

section Rules

variable {α β : Type} {p : Parser α} {Q R : α → State → Prop} {s : State}

theorem Yields.mono (h : Yields p Q s) (hQ : ∀ a t, Q a t → R a t) : Yields p R s :=
  fun a t heq => hQ a t (h a t heq)

theorem Yields.and (h : Yields p Q s) (h' : Yields p R s) : Yields p (fun a t => Q a t ∧ R a t) s :=
  fun a t heq => ⟨h a t heq, h' a t heq⟩

theorem yields_of_eq {a : α} {t : State} (h : p s = .ok (a, t)) : Yields p Q s ↔ Q a t := by
  constructor
  · exact fun hy => hy a t h
  · rintro hQ b u heq
    rw [h] at heq
    cases heq
    exact hQ

theorem yields_congr {q : Parser α} {t : State} (h : p s = q t) :
    Yields p Q s ↔ Yields q Q t := by
  unfold Yields
  rw [h]

theorem yields_of_error {e : Nat} (h : p s = .error e) : Yields p Q s ↔ True := by
  refine iff_true_intro fun a t heq => ?_
  rw [h] at heq
  cases heq

theorem yields_pure {a : α} : Yields (pure a) Q s ↔ Q a s :=
  yields_of_eq rfl

theorem yields_bind {f : α → Parser β} {Q : β → State → Prop} :
    Yields (p >>= f) Q s ↔ Yields p (Then f Q) s := by
  have hbind : (p >>= f) s = (p s).bind fun x => f x.1 x.2 := rfl
  cases hp : p s with
  | error e =>
    rw [yields_of_error hp]
    exact yields_of_error (by rw [hbind, hp]; rfl)
  | ok x =>
    rw [yields_of_eq (show p s = .ok (x.1, x.2) from hp)]
    have heq : (p >>= f) s = f x.1 x.2 := by rw [hbind, hp]; rfl
    constructor
    · exact fun h a t ha => h a t (heq.trans ha)
    · exact fun h a t ha => h a t (heq.symm.trans ha)

theorem yields_ite {c : Prop} [Decidable c] {q : Parser α} :
    Yields (if c then p else q) Q s ↔ (c → Yields p Q s) ∧ (¬ c → Yields q Q s) := by
  split <;> simp [*]

theorem yields_eat {x : String} {Q : Bool → State → Prop} :
    Yields (eat x) Q s ↔
      (s.token.is x = true → Q true s.next) ∧ (¬ s.token.is x = true → Q false s) := by
  have heat : eat x s =
      (if s.token.is x = true then advance >>= fun _ => pure true else pure false) s := rfl
  rw [yields_congr heat, yields_ite, yields_of_eq (p := advance >>= fun _ => pure true) rfl,
    yields_pure]
  rfl

theorem yields_expect {x : String} {Q : Unit → State → Prop} :
    Yields (expect x) Q s ↔ (s.token.is x = true → Q () s.next) := by
  have hexpect : expect x s = (if s.token.is x = true then advance else unexpected) s := rfl
  rw [yields_congr hexpect, yields_ite, yields_of_eq (p := advance) rfl,
    yields_of_error (p := unexpected) rfl]
  simp only [implies_true, and_true]
  rfl

/-- The elementary steps, each with what is left to show after it. `eat` is not among them: often
it does not matter whether the token was there. -/
theorem yields_steps :
    (∀ {α β : Type} (p : Parser α) (f : α → Parser β) Q s,
      Yields (p >>= f) Q s ↔ Yields p (Then f Q) s) ∧
    (∀ {α β : Type} (f : α → Parser β) Q a s, Then f Q a s ↔ Yields (f a) Q s) ∧
    (∀ {α : Type} (a : α) Q s, Yields (pure a) Q s ↔ Q a s) ∧
    (∀ {α : Type} (c : Prop) [Decidable c] (p q : Parser α) Q s,
      Yields (if c then p else q) Q s ↔ (c → Yields p Q s) ∧ (¬ c → Yields q Q s)) ∧
    (∀ {α : Type} (p q : Parser α), (if True then p else q) = p) ∧
    (∀ {α : Type} (p q : Parser α), (if False then p else q) = q) ∧
    ((false = true) = False) ∧
    (∀ {α : Type} n (Q : α → State → Prop) s, Yields (stop n) Q s ↔ True) ∧
    (∀ {α : Type} (Q : α → State → Prop) s, Yields unexpected Q s ↔ True) ∧
    (∀ Q s, Yields get Q s ↔ Q s s) ∧
    (∀ t Q s, Yields (set t) Q s ↔ Q ⟨⟩ t) ∧
    (∀ f Q s, Yields (modify f) Q s ↔ Q ⟨⟩ (f s)) ∧
    (∀ n Q s, Yields (note n) Q s ↔ Q () (s.noting n)) ∧
    (∀ Q s, Yields token Q s ↔ Q s.token s) ∧
    (∀ Q s, Yields dialect Q s ↔ Q s.dialect s) ∧
    (∀ Q s, Yields scope Q s ↔ Q s.scope s) ∧
    (∀ x Q s, Yields (sees x) Q s ↔ Q (s.token.is x) s) ∧
    (∀ xs Q s, Yields (seesAny xs) Q s ↔ Q (s.token.isAny xs) s) ∧
    (∀ Q s, Yields seesEnd Q s ↔ Q (s.token.lexeme == .finish) s) ∧
    (∀ Q s, Yields offset Q s ↔ Q s.token.span.start s) ∧
    (∀ n Q s, Yields (spanFrom n) Q s ↔ Q ⟨n, s.lastStop⟩ s) ∧
    (∀ reader Q s, Yields (advanceWith reader) Q s ↔ Q () (s.past reader)) ∧
    (∀ Q s, Yields advance Q s ↔ Q () s.next) ∧
    (∀ reader Q s, Yields (again reader) Q s ↔ Q () (s.again reader)) ∧
    (∀ f Q s, Yields (next f) Q s ↔ Q (f s.next.token) s) ∧
    (∀ x Q s, Yields (expect x) Q s ↔ (s.token.is x = true → Q () s.next)) ∧
    (∀ Q s, Yields mayEnd Q s ↔
      Q (s.token.isAny [";", rbrace] || s.token.lexeme == .finish || s.token.newline) s) :=
  ⟨fun _ _ _ _ => yields_bind, fun _ _ _ _ => .rfl, fun _ _ _ => yields_pure,
    fun _ _ _ _ _ _ => yields_ite, fun _ _ => if_pos trivial, fun _ _ => if_neg id,
    Bool.false_eq_true, fun _ _ _ => yields_of_error rfl, fun _ _ => yields_of_error rfl,
    fun _ _ => yields_of_eq rfl, fun _ _ _ => yields_of_eq rfl, fun _ _ _ => yields_of_eq rfl,
    fun _ _ _ => yields_of_eq rfl,
    fun _ _ => yields_of_eq rfl, fun _ _ => yields_of_eq rfl, fun _ _ => yields_of_eq rfl,
    fun _ _ _ => yields_of_eq rfl, fun _ _ _ => yields_of_eq rfl, fun _ _ => yields_of_eq rfl,
    fun _ _ => yields_of_eq rfl, fun _ _ _ => yields_of_eq rfl, fun _ _ _ => yields_of_eq rfl,
    fun _ _ => yields_of_eq rfl, fun _ _ _ => yields_of_eq rfl, fun _ _ _ => yields_of_eq rfl,
    fun _ _ _ => yields_expect, fun _ _ => yields_of_eq rfl⟩

/-- A look ahead leaves the state as it is. -/
theorem yields_ahead {p : Parser Bool} {Q : Bool → State → Prop} (hfalse : Q false s)
    (htrue : (∃ t, p s = .ok (true, t)) → Q true s) : Yields (ahead p) Q s := by
  intro a t heq
  rw [ahead] at heq
  split at heq
  · rename_i b u hp
    cases heq
    cases a with
    | false => exact hfalse
    | true => exact htrue ⟨u, hp⟩
  · cases heq
    exact hfalse

/-- A look ahead that answers yes has seen what `C` says. -/
theorem ahead_run {p : Parser Bool} {C : Prop} {Q : Bool → State → Prop}
    (hp : Yields p (fun b _ => b = true → C) s) (k : ∀ b, (b = true → C) → Q b s) :
    Yields (ahead p) Q s := by
  refine yields_ahead (k false nofun) ?_
  rintro ⟨t, ht⟩
  exact k true fun _ => hp true t ht rfl

/-- Where a parser stops that was only tried, the state is as it was. -/
theorem yields_attempt {Q : Option α → State → Prop} (hnone : Q none s)
    (hsome : Yields p (fun a t => Q (some a) t) s) : Yields (attempt p) Q s := by
  intro a t heq
  rw [attempt] at heq
  split at heq
  · rename_i b u hp
    cases heq
    exact hsome b _ hp
  · cases heq
    exact hnone

theorem yields_within {change : Scope → Scope} :
    Yields (within change p) Q s ↔
      Yields p (fun a t => Q a (t.inScope s.scope)) (s.inScope (change s.scope)) := by
  have hwithin : (within change p) s =
      (p >>= fun a => modify (State.inScope s.scope) >>= fun _ => pure a)
        (s.inScope (change s.scope)) := rfl
  have hrest (a : α) (t : State) :
      Yields (modify (State.inScope s.scope) >>= fun _ => pure a) Q t ↔
        Q a (t.inScope s.scope) := yields_of_eq rfl
  rw [yields_congr hwithin, yields_bind]
  exact ⟨fun h => h.mono fun a t => (hrest a t).mp, fun h => h.mono fun a t => (hrest a t).mpr⟩

/-- A loop keeps what each of its rounds keeps. -/
theorem yields_repeatFrom {σ : Type} {step : σ → Parser (σ ⊕ α)} (I : σ → State → Prop) {x : σ}
    (hstep : ∀ y t, I y t →
      Yields (step y) (fun r u => Sum.elim (fun z => I z u) (fun a => Q a u) r) t)
    (hx : I x s) : Yields (repeatFrom x step) Q s := by
  have key (n : Nat) (y : σ) (t : State) (hy : I y t) : Yields (loop step n y) Q t := by
    induction n generalizing y t with
    | zero => exact (yields_of_error rfl).mpr trivial
    | succ n ih =>
      rw [loop, yields_bind]
      refine (hstep y t hy).mono fun r u hr => ?_
      cases r with
      | inl z => exact ih z u hr
      | inr a => exact yields_pure.mpr hr
  exact yields_bind.mpr ((yields_of_eq rfl).mpr (key s.budget x s hx))

end Rules

/-- Whatever the parser answers is as `S` says. -/
def Answers {α : Type} (p : Parser α) (S : α → Prop) : Prop :=
  ∀ s, Yields p (fun a _ => S a) s

section Answers

variable {α β : Type} {p q : Parser α} {S : α → Prop}

theorem answers_pure {a : α} (h : S a) : Answers (pure a) S :=
  fun _ => yields_pure.mpr h

theorem answers_bind_of {f : α → Parser β} {T : β → Prop} (hp : Answers p S)
    (h : ∀ a, S a → Answers (f a) T) : Answers (p >>= f) T :=
  fun s => yields_bind.mpr fun a t heq => h a (hp s a t heq) t

theorem answers_bind {f : α → Parser β} {T : β → Prop} (h : ∀ a, Answers (f a) T) :
    Answers (p >>= f) T :=
  fun _ => yields_bind.mpr fun a t _ => h a t

theorem answers_ite {c : Prop} [Decidable c] (hp : Answers p S) (hq : Answers q S) :
    Answers (if c then p else q) S :=
  fun s => yields_ite.mpr ⟨fun _ => hp s, fun _ => hq s⟩

theorem answers_unexpected : Answers (unexpected : Parser α) S :=
  fun _ => (yields_of_error rfl).mpr trivial

theorem answers_within {change : Scope → Scope} (h : Answers p S) : Answers (within change p) S :=
  fun _ => yields_within.mpr (h _)

theorem answers_many {more : Parser Bool} {item : Parser α}
    (h : Answers item S) : Answers (many more item) fun items => ∀ a ∈ items, S a := by
  intro s
  refine yields_repeatFrom (fun items _ => ∀ a ∈ items, S a) ?_ (by simp)
  intro items t hitems
  refine yields_bind.mpr fun b u _ => yields_ite.mpr ⟨fun _ => ?_, fun _ => ?_⟩
  · refine yields_bind.mpr fun a v ha => yields_pure.mpr ?_
    exact List.forall_mem_cons.mpr ⟨h u a v ha, hitems⟩
  · exact yields_pure.mpr fun a ha => hitems a (List.mem_reverse.mp ha)

end Answers

end Parser

end Codemod
