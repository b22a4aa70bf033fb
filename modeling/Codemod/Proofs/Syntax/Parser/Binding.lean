import Codemod.Syntax.Parser.Binding
import Codemod.Proofs.Syntax.Parser.Laid

/-!
# Codemod.Proofs.Syntax.Parser.Binding

The layout of keys, patterns, parameters and decorators.
-/

namespace Codemod

namespace Parser

variable {source : Text} {g : Grammar} {lo : Nat} {m : Bool} {s : State} {ns : List Node}

theorem Sound.within {p : Parser Node} (hp : Sound source p) (change : Scope → Scope) :
    Sound source (within change p) := by
  intro s hs
  rw [yields_within]
  exact hp (s.inScope _) hs

theorem Emits.within {α : Type} {moves : Bool} {p : Parser α} {f : α → List Node}
    (hp : Emits source moves p f) (change : Scope → Scope) :
    Emits source moves (within change p) f := by
  intro s lo m ns h
  rw [yields_within]
  exact hp (s.inScope _) lo m ns h

section

variable (hg : Grammar.Sound source g)
include hg

theorem inner_sound : Sound source (inner g) :=
  (hg.assignment true).within _

theorem innerExpression_sound : Sound source (innerExpression g) :=
  hg.expression.within _

end

/-- What is known of a key that was read from `s` on. -/
structure KeyFrom (s t : State) (k : Key) : Prop where
  solid : s.token.lexeme.isSolid = true
  named : k.name.isSome = true → k.span = s.token.span ∧ t.lastStop = s.token.span.stop ∧
    (k.parts = [] ∨ ∃ value, k.parts = [.string k.span value])
  word : s.token.isWord = true → k.name.isSome = true ∧ k.parts = []

/-- A token alone makes up a node. -/
theorem Placed.leaf {n : Node} (h : Placed source s) (ht : s.token.lexeme.isSolid = true)
    (hspan : n.span = s.token.span) (hchildren : n.children = []) (hn : isPlain n = true) :
    Laid source s.token.span.start true s.next [n] :=
  (h.begin.next ht).plain hspan hchildren hn

/-- An empty place in a list is the comma after it. -/
theorem Laid.hole {n : Node} (h : Laid source lo true s ns) (hx : s.token.is "," = true)
    (hspan : n.span = s.token.span) (hchildren : n.children = []) (hn : isPlain n = true) :
    Laid source lo true s.next (ns ++ [n]) :=
  h.append (h.placed.leaf (isSolid_of_is hx) hspan hchildren hn)

theorem key_run (hg : Grammar.Sound source g) {Q : Key → State → Prop}
    (h : Laid source lo m s ns)
    (k : ∀ key t, Laid source lo true t (ns ++ key.parts) → KeyFrom s t key → Q key t) :
    Yields (key g) Q s := by
  simp only [key, yields_steps]
  split
  · rename_i value hl
    simp only [yields_steps]
    have hsolid := isSolid_of_eq hl rfl
    refine k _ _ (h.append (h.placed.leaf hsolid rfl rfl rfl)) ⟨hsolid, ?_, ?_⟩
    · exact fun _ => ⟨rfl, rfl, .inr ⟨value, rfl⟩⟩
    · intro hw
      rw [Token.isWord, hl] at hw
      cases hw
  · rename_i name escaped hl
    simp only [yields_steps]
    have hsolid := isSolid_of_eq hl rfl
    refine k _ _ ?_ ⟨hsolid, fun _ => ⟨rfl, rfl, .inl rfl⟩, fun _ => ⟨rfl, rfl⟩⟩
    simpa using h.next hsolid
  · rename_i hl
    simp only [yields_steps]
    refine k _ _ ?_ ⟨isSolid_of_eq hl rfl, ?_, ?_⟩
    · simpa using h.next (isSolid_of_eq hl rfl)
    · intro hname
      cases hname
    · intro hw
      rw [Token.isWord, hl] at hw
      cases hw
  · rename_i hl
    simp only [yields_steps]
    refine k _ _ ?_ ⟨isSolid_of_eq hl rfl, ?_, ?_⟩
    · simpa using h.next (isSolid_of_eq hl rfl)
    · intro hname
      cases hname
    · intro hw
      rw [Token.isWord, hl] at hw
      cases hw
  · rename_i hl
    simp only [yields_steps]
    refine (inner_sound hg).push (h.next (isSolid_of_eq hl rfl)) fun e t ht => ?_
    simp only [yields_steps]
    refine fun hx => k _ _ (ht.eat hx) ⟨isSolid_of_eq hl rfl, ?_, ?_⟩
    · intro hname
      cases hname
    · intro hw
      rw [Token.isWord, hl] at hw
      cases hw
  · simp only [yields_steps]

/-- A name that introduces a binding is the current token. -/
theorem bindingName_run {Q : Span × String → State → Prop} (h : Laid source lo m s ns)
    (k : ∀ name t, Laid source lo true t ns → t.lastStop = s.token.span.stop →
      Q (s.token.span, name) t) : Yields bindingName Q s := by
  simp only [bindingName, yields_steps]
  split
  · rename_i name escaped hl
    have hnext := h.next (isSolid_of_eq hl rfl)
    simp only [yields_steps]
    refine ⟨fun _ => trivial, fun _ => ⟨fun _ => ?_, fun _ => k name _ hnext rfl⟩⟩
    exact k name _ hnext rfl
  · simp only [yields_steps]

theorem bindingName_passes : Passes source true bindingName :=
  fun _ _ _ _ h => bindingName_run h fun _ _ ht _ => ht

theorem referenceName_sound : Sound source referenceName := by
  intro s hs
  simp only [referenceName, yields_steps]
  refine bindingName_run hs.begin fun name t ht hstop => ?_
  simp only [yields_steps]
  exact ht.plain (by simp [Node.span, hstop]) rfl rfl

section

variable (hg : Grammar.Sound source g)
include hg

theorem typeMark_emits : Emits source false (typeMark g) fun ns => ns := by
  intro s lo m ns h
  simp only [typeMark, yields_steps]
  refine ⟨fun hx => ?_, fun _ => by simpa using h⟩
  rw [Bool.and_eq_true] at hx
  refine hg.type.push (h.eat hx.2) fun n t ht => ?_
  simp only [yields_steps]
  exact ht.weaken

theorem initializer_emits : Emits source false (initializer g) fun ns => ns := by
  intro s lo m ns h
  simp only [initializer, yields_steps, yields_eat]
  refine ⟨fun hx => ?_, fun _ => by simpa using h⟩
  refine (inner_sound hg).push (h.eat hx) fun n t ht => ?_
  simp only [yields_steps]
  exact ht.weaken

theorem patternElement_sound : Sound source (patternElement g) := by
  intro s hs
  simp only [patternElement, yields_steps]
  refine hg.pattern.push hs.begin fun target t ht => ?_
  simp only [yields_steps]
  refine (initializer_emits hg).run ht fun init u hu => ?_
  simp only [yields_steps]
  exact hu.plain rfl rfl rfl

theorem restElement_sound (close : String) : Sound source (restElement g close) := by
  intro s hs
  simp -zeta only [restElement, yields_steps]
  intro hx
  refine hg.pattern.push (hs.begin.eat hx) fun target t ht => ?_
  simp -zeta only [yields_steps]
  refine (typeMark_emits hg).run ht fun type u hu => ?_
  simp -zeta only [yields_steps]
  refine (initializer_emits hg).run hu fun init v hv => ?_
  have hnode := hv.plain (n := .other ⟨s.token.span.start, v.lastStop⟩ (target :: (type ++ init)))
    rfl (by simp [Node.children]) rfl
  simp only [yields_steps]
  exact ⟨fun _ => ⟨fun _ => ⟨fun _ => hnode, fun _ => hnode⟩, fun _ => hnode⟩,
    fun _ => ⟨fun _ => ⟨fun _ => hnode, fun _ => hnode⟩, fun _ => hnode⟩⟩

theorem objectPattern_sound : Sound source (objectPattern g) := by
  intro s hs
  simp only [objectPattern, yields_steps]
  intro hx
  refine emits_separated ?_ (by decide) (hs.begin.eat hx) fun properties t ht => ?_
  · intro s hs
    simp only [yields_steps]
    refine ⟨fun _ => restElement_sound hg rbrace s hs, fun _ => ?_⟩
    refine key_run hg hs.begin fun k t ht hk => ?_
    simp only [yields_steps, yields_eat]
    refine ⟨fun hx => ?_, fun _ => ⟨fun hname => ?_, fun _ => trivial⟩⟩
    · refine (patternElement_sound hg).push (ht.eat hx) fun target u hu => ?_
      simp only [yields_steps]
      exact hu.plain rfl rfl rfl
    · -- a name alone has no parts
      rw [(hk.word (isWord_of_isName hname)).2] at ht
      refine (initializer_emits hg).run ht fun init u hu => ?_
      simp only [yields_steps]
      exact hu.plain rfl rfl rfl
  · simp only [yields_steps]
    exact fun hx => (ht.eat hx).plain rfl rfl rfl

theorem arrayPattern_sound : Sound source (arrayPattern g) := by
  intro s hs
  simp only [arrayPattern, yields_steps]
  intro hx
  refine yields_separated (f := fun n => [n]) (by decide) ?_ (hs.begin.eat hx)
    fun elements t ht => ?_
  · intro t ns ht
    simp only [yields_steps]
    refine ⟨fun hcomma => .inr ⟨hcomma, ht.hole hcomma rfl rfl rfl⟩,
      fun _ => ⟨fun _ => ?_, fun _ => ?_⟩⟩
    · exact (restElement_sound hg "]").push ht fun _ _ hu => .inl hu
    · exact (patternElement_sound hg).push ht fun _ _ hu => .inl hu
  · simp only [yields_steps]
    exact fun hx => (ht.eat hx).plain rfl (by simp [Node.children]) rfl

theorem pattern_sound : Sound source (pattern g) := by
  intro s hs
  simp only [pattern, yields_steps]
  refine ⟨fun _ => arrayPattern_sound hg s hs, fun _ => ⟨fun _ => objectPattern_sound hg s hs,
    fun _ => ?_⟩⟩
  refine bindingName_run hs.begin fun name t ht hstop => ?_
  simp only [yields_steps]
  exact ht.plain (by simp [Node.span, hstop]) rfl rfl

theorem decorator_sound : Sound source (decorator g) := by
  intro s hs
  simp only [decorator, yields_steps]
  intro hx
  refine (hg.operand.within _).push (hs.begin.eat hx) fun e t ht => ?_
  simp only [yields_steps]
  exact ht.plain rfl rfl rfl

theorem decorators_emits : Emits source false (decorators g) fun ns => ns := by
  refine emits_many_nodes (fun s => ?_) (decorator_sound hg)
  simp only [yields_steps]

omit hg in
theorem skipParameterModifiers_passes : Passes source false skipParameterModifiers := by
  intro s lo m ns h
  simp only [skipParameterModifiers, yields_steps]
  refine (passes_many_advance fun t => ?_).run h fun _ t ht => ?_
  · simp only [yields_steps]
    refine ⟨fun hx => ⟨trivial, fun _ => ?_⟩, fun _ => ⟨trivial, nofun⟩⟩
    rw [Bool.and_eq_true] at hx
    exact isSolid_of_isAny hx.2
  · simp only [yields_steps]
    exact ht

theorem parameter_sound : Sound source (parameter g) := by
  intro s hs
  simp -zeta only [parameter, yields_steps]
  refine (decorators_emits hg).run hs.begin fun marks t ht => ?_
  simp -zeta only [yields_steps]
  refine skipParameterModifiers_passes.run ht fun _ u hu => ?_
  simp -zeta only [yields_steps]
  refine ⟨fun _ => ?_, fun _ => ⟨fun hx => ?_, fun _ => ?_⟩⟩
  · refine (restElement_sound hg ")").push hu fun rest v hv => ?_
    simp only [yields_steps]
    exact hv.plain rfl rfl rfl
  · rw [Bool.and_eq_true] at hx
    refine (typeMark_emits hg).run ((hu.sublist (List.nil_sublist _)).eat hx.2) fun type v hv => ?_
    simp only [yields_steps]
    exact hv.plain rfl rfl rfl
  · refine hg.pattern.push hu fun target v hv => ?_
    simp -zeta only [yields_steps]
    extract_lets finish
    have hfinish (w : State) (hw : Laid source s.token.span.start true w (marks ++ [target])) :
        Yields (finish ()) (Done source s.token.span.start) w := by
      simp only [finish, yields_steps]
      refine (typeMark_emits hg).run hw fun type x hx => ?_
      simp only [yields_steps]
      refine (initializer_emits hg).run hx fun init y hy => ?_
      simp only [yields_steps]
      exact hy.plain rfl (by simp [Node.children]) rfl
    clear_value finish
    simp only [yields_steps]
    refine ⟨fun _ => (passes_eat "?").run hv fun _ w hw => ?_, fun _ => hfinish _ hv⟩
    simp only [yields_steps]
    exact hfinish w hw

theorem parameters_emits : Emits source true (parameters g) fun ns => ns := by
  intro s lo m ns h
  simp only [parameters, yields_steps]
  intro hx
  refine emits_separated (parameter_sound hg) (by decide) (h.eat hx) fun ps t ht => ?_
  simp only [yields_steps]
  exact fun hx => ht.eat hx

end

end Parser

end Codemod
