import Codemod.Proofs.Syntax.Parser.Yields
import Codemod.Proofs.Syntax.Spelling

/-!
# Codemod.Proofs.Syntax.Parser.Gives

What a parser does on a text that is known.

`Gives p Q s` says that `p` succeeds from `s`, with an answer and a state as `Q` says; as for
`Yields`, each elementary step has one equation. Where the text ahead is known token by token
(`Lexer.Tokens`), so are the states: going on over such a token changes nothing but where the parser
stands (`State.Moved`). `Reads p tail Q u` is the form in which such runs are put together: `u` is
the state before the first token is read, and `tail` is left to be read.
-/

namespace Codemod

namespace Lexer

/-- The first tokens of a text, all on one line, and what comes after them. -/
inductive Tokens : Text → List Lexeme → Text → Prop
  | nil (text : Text) : Tokens text [] text
  | cons {text mid rest : Text} {l : Lexeme} {ls : List Lexeme} :
    Begins text l false mid → Tokens mid ls rest → Tokens text (l :: ls) rest

theorem Tokens.append {text mid rest : Text} {ls ms : List Lexeme} (h : Tokens text ls mid)
    (h' : Tokens mid ms rest) : Tokens text (ls ++ ms) rest := by
  induction h with
  | nil => exact h'
  | cons hfirst _ ih => exact .cons hfirst (ih h')

end Lexer

open Lexer (Begins Tokens)

namespace Parser

/-- The parser succeeds from `s`, and its answer and the state it leaves are as `Q` says. -/
def Gives {α : Type} (p : Parser α) (Q : α → State → Prop) (s : State) : Prop :=
  ∃ a t, p s = .ok (a, t) ∧ Q a t

section Rules

variable {α β : Type} {p : Parser α} {Q R : α → State → Prop} {s : State}

theorem Gives.mono (h : Gives p Q s) (hQ : ∀ a t, Q a t → R a t) : Gives p R s := by
  obtain ⟨a, t, heq, h⟩ := h
  exact ⟨a, t, heq, hQ a t h⟩

theorem gives_of_eq {a : α} {t : State} (h : p s = .ok (a, t)) : Gives p Q s ↔ Q a t := by
  constructor
  · rintro ⟨b, u, heq, hQ⟩
    rw [h] at heq
    cases heq
    exact hQ
  · exact fun hQ => ⟨a, t, h, hQ⟩

theorem gives_bind {f : α → Parser β} {Q : β → State → Prop} :
    Gives (p >>= f) Q s ↔ Gives p (fun a t => Gives (f a) Q t) s := by
  have hbind : (p >>= f) s = (p s).bind fun x => f x.1 x.2 := rfl
  constructor
  · rintro ⟨b, t, heq, hQ⟩
    rw [hbind] at heq
    cases hp : p s with
    | error e =>
      rw [hp] at heq
      cases heq
    | ok x =>
      rw [hp] at heq
      exact ⟨x.1, x.2, hp, b, t, heq, hQ⟩
  · rintro ⟨a, t, hp, b, u, heq, hQ⟩
    refine ⟨b, u, ?_, hQ⟩
    rw [hbind, hp]
    exact heq

theorem gives_eat {x : String} {Q : Bool → State → Prop} :
    Gives (eat x) Q s ↔ if s.token.is x then Q true s.next else Q false s := by
  have heat : eat x s =
      (if s.token.is x = true then advance >>= fun _ => pure true else pure false) s := rfl
  split
  · rename_i h
    refine gives_of_eq (heat.trans ?_)
    rw [if_pos h]
    rfl
  · rename_i h
    refine gives_of_eq (heat.trans ?_)
    rw [if_neg h]
    rfl

theorem gives_expect {x : String} {Q : Unit → State → Prop} :
    Gives (expect x) Q s ↔ s.token.is x = true ∧ Q () s.next := by
  have hexpect : expect x s = (if s.token.is x = true then advance else unexpected) s := rfl
  constructor
  · rintro ⟨a, t, heq, hQ⟩
    rw [hexpect] at heq
    split at heq
    · rename_i h
      cases heq
      exact ⟨h, hQ⟩
    · cases heq
  · rintro ⟨h, hQ⟩
    refine ⟨(), s.next, ?_, hQ⟩
    rw [hexpect, if_pos h]
    rfl

theorem gives_ahead {p : Parser Bool} {Q : Bool → State → Prop}
    (h : Gives p (fun b _ => Q b s) s) : Gives (ahead p) Q s := by
  obtain ⟨b, t, heq, hQ⟩ := h
  refine ⟨b, s, ?_, hQ⟩
  rw [ahead, heq]

theorem gives_within {change : Scope → Scope} :
    Gives (within change p) Q s ↔
      Gives p (fun a t => Q a (t.inScope s.scope)) (s.inScope (change s.scope)) := by
  have hwithin : (within change p) s =
      (p >>= fun a => modify (State.inScope s.scope) >>= fun _ => pure a)
        (s.inScope (change s.scope)) := rfl
  have hrest (a : α) (t : State) :
      Gives (modify (State.inScope s.scope) >>= fun _ => pure a) Q t ↔
        Q a (t.inScope s.scope) := gives_of_eq rfl
  have hcongr : Gives (within change p) Q s ↔
      Gives (p >>= fun a => modify (State.inScope s.scope) >>= fun _ => pure a) Q
        (s.inScope (change s.scope)) := by
    rw [Gives, Gives, hwithin]
  rw [hcongr, gives_bind]
  exact ⟨fun h => h.mono fun a t => (hrest a t).mp, fun h => h.mono fun a t => (hrest a t).mpr⟩

theorem gives_loop {σ : Type} {step : σ → Parser (σ ⊕ α)} {n : Nat} {x : σ} :
    Gives (loop step (n + 1) x) Q s ↔ Gives (step x)
      (fun r t => Sum.elim (fun y => Gives (loop step n y) Q t) (fun a => Q a t) r) s := by
  rw [loop, gives_bind]
  refine ⟨fun h => h.mono ?_, fun h => h.mono ?_⟩
  · intro r t hr
    cases r with
    | inl y => exact hr
    | inr a => exact (gives_of_eq rfl).mp hr
  · intro r t hr
    cases r with
    | inl y => exact hr
    | inr a => exact (gives_of_eq rfl).mpr hr

theorem gives_repeatFrom {σ : Type} {step : σ → Parser (σ ⊕ α)} {x : σ} :
    Gives (repeatFrom x step) Q s ↔ Gives (loop step s.budget x) Q s := by
  rw [repeatFrom, gives_bind]
  exact gives_of_eq rfl

/-- The elementary steps, each with what is left to show after it. -/
theorem gives_steps :
    (∀ {α β : Type} (p : Parser α) (f : α → Parser β) Q s,
      Gives (p >>= f) Q s ↔ Gives p (fun a t => Gives (f a) Q t) s) ∧
    (∀ {α : Type} (a : α) Q s, Gives (pure a) Q s ↔ Q a s) ∧
    (∀ Q s, Gives get Q s ↔ Q s s) ∧
    (∀ n Q s, Gives (note n) Q s ↔ Q () (s.noting n)) ∧
    (∀ Q s, Gives token Q s ↔ Q s.token s) ∧
    (∀ Q s, Gives dialect Q s ↔ Q s.dialect s) ∧
    (∀ Q s, Gives scope Q s ↔ Q s.scope s) ∧
    (∀ x Q s, Gives (sees x) Q s ↔ Q (s.token.is x) s) ∧
    (∀ xs Q s, Gives (seesAny xs) Q s ↔ Q (s.token.isAny xs) s) ∧
    (∀ Q s, Gives seesEnd Q s ↔ Q (s.token.lexeme == .finish) s) ∧
    (∀ Q s, Gives offset Q s ↔ Q s.token.span.start s) ∧
    (∀ n Q s, Gives (spanFrom n) Q s ↔ Q ⟨n, s.lastStop⟩ s) ∧
    (∀ Q s, Gives advance Q s ↔ Q () s.next) ∧
    (∀ f Q s, Gives (next f) Q s ↔ Q (f s.next.token) s) ∧
    (∀ x Q s, Gives (expect x) Q s ↔ s.token.is x = true ∧ Q () s.next) ∧
    (∀ x Q s, Gives (eat x) Q s ↔ if s.token.is x then Q true s.next else Q false s) ∧
    (∀ Q s, Gives mayEnd Q s ↔
      Q (s.token.isAny [";", rbrace] || s.token.lexeme == .finish || s.token.newline) s) :=
  ⟨fun _ _ _ _ => gives_bind, fun _ _ _ => gives_of_eq rfl, fun _ _ => gives_of_eq rfl,
    fun _ _ _ => gives_of_eq rfl, fun _ _ => gives_of_eq rfl, fun _ _ => gives_of_eq rfl,
    fun _ _ => gives_of_eq rfl, fun _ _ _ => gives_of_eq rfl, fun _ _ _ => gives_of_eq rfl,
    fun _ _ => gives_of_eq rfl, fun _ _ => gives_of_eq rfl, fun _ _ _ => gives_of_eq rfl,
    fun _ _ => gives_of_eq rfl, fun _ _ _ => gives_of_eq rfl, fun _ _ _ => gives_expect,
    fun _ _ _ => gives_eat, fun _ _ => gives_of_eq rfl⟩

end Rules

namespace State

/-- `t` stands elsewhere than `s`, and that is all, except for a fault that may be `noted`. -/
structure Moved (noted : Bool) (s t : State) : Prop where
  eq : t = { s with
    token := t.token, here := t.here, rest := t.rest, lastStop := t.lastStop
    grammarFault := t.grammarFault }
  fault : t.grammarFault.isSome = (s.grammarFault.isSome || noted)

theorem Moved.refl (s : State) : s.Moved false s :=
  ⟨rfl, (Bool.or_false _).symm⟩

theorem Moved.trans {noted noted' : Bool} {s t u : State} (h : s.Moved noted t)
    (h' : t.Moved noted' u) : s.Moved (noted || noted') u := by
  refine ⟨?_, ?_⟩
  · rw [h'.eq, h.eq]
  · rw [h'.fault, h.fault, Bool.or_assoc]

theorem next_noting (s : State) (offset : Nat) : (s.noting offset).next = s.next.noting offset :=
  rfl

theorem rest_noting (s : State) (offset : Nat) : (s.noting offset).rest = s.rest :=
  rfl

theorem Moved.noting {s t : State} (h : s.Moved false t) (offset : Nat) :
    s.Moved true (t.noting offset) := by
  refine ⟨?_, ?_⟩
  · rw [h.eq]
    rfl
  · simp [State.noting]

theorem next_inScope (s : State) (scope : Scope) : (s.inScope scope).next = s.next.inScope scope :=
  rfl

/-- A move in another scope, and back to the old one. -/
theorem Moved.inScope {noted : Bool} {s t : State} {scope : Scope}
    (h : (s.inScope scope).Moved noted t) : s.Moved noted (t.inScope s.scope) := by
  refine ⟨?_, h.fault⟩
  rw [h.eq]
  rfl

variable {s : State} {l : Lexeme} {newline : Bool} {rest : Text} {ls : List Lexeme}

theorem next_of_begins (h : Begins s.rest l newline rest) :
    s.Moved false s.next ∧ (∃ span, s.next.token = ⟨l, span, newline⟩) ∧ s.next.rest = rest := by
  obtain ⟨span, here, hread⟩ := h s.token.span.stop
  have hnext : s.next = { s with
      lastStop := s.token.span.stop, token := ⟨l, span, newline⟩, here, rest } := by
    rw [next, past, hread, taking]
    simp
  rw [hnext]
  exact ⟨⟨rfl, (Bool.or_false _).symm⟩, ⟨span, rfl⟩, rfl⟩

theorem next_of_tokens (h : Tokens s.rest (l :: ls) rest) :
    s.Moved false s.next ∧ (∃ span, s.next.token = ⟨l, span, false⟩) ∧ Tokens s.next.rest ls rest := by
  cases h with
  | cons hfirst hrest =>
    obtain ⟨hmoved, htoken, heq⟩ := next_of_begins hfirst
    exact ⟨hmoved, htoken, heq ▸ hrest⟩

end State

/-- At the first token after `u` the parser reads on up to `tail`, and finds a fault if `noted`. -/
def Reads {α : Type} (noted : Bool) (p : Parser α) (tail : Text) (Q : α → Prop) (u : State) :
    Prop :=
  Gives p (fun a t => ∃ v, u.Moved noted v ∧ v.rest = tail ∧ t = v.next ∧ Q a) u.next

section Reads

variable {α β : Type} {noted noted' : Bool} {p : Parser α} {mid tail : Text} {u : State}

theorem Reads.imp {Q R : α → Prop} (h : Reads noted p tail Q u) (hQ : ∀ a, Q a → R a) :
    Reads noted p tail R u := by
  refine h.mono ?_
  rintro a t ⟨v, hmoved, hrest, heq, ha⟩
  exact ⟨v, hmoved, hrest, heq, hQ a ha⟩

theorem Reads.bind {f : α → Parser β} {R : α → Prop} {Q : β → Prop} (h : Reads noted p mid R u)
    (hf : ∀ a v, u.Moved noted v → v.rest = mid → R a → Reads noted' (f a) tail Q v) :
    Reads (noted || noted') (p >>= f) tail Q u := by
  refine gives_bind.mpr (h.mono ?_)
  rintro a t ⟨v, hmoved, hrest, rfl, hR⟩
  refine (hf a v hmoved hrest hR).mono ?_
  rintro b t ⟨w, hmoved', hrest', rfl, hQ⟩
  exact ⟨w, hmoved.trans hmoved', hrest', rfl, hQ⟩

end Reads

end Parser

end Codemod
