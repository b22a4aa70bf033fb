import Codemod.Syntax.Parser.Declaration
import Codemod.Proofs.Syntax.Parser.Expression

/-!
# Codemod.Proofs.Syntax.Parser.Declaration

The layout of declarations.
-/

namespace Codemod

namespace Parser

variable {source : Text} {g : Grammar} {lo start : Nat} {m : Bool} {s t : State}
  {ns marks : List Node} {n : Node}

/-- Looking for a missing value only notes faults. -/
theorem checkInitialized_passes (constant : Bool) (n : Node) :
    Passes source false (checkInitialized constant n) := by
  intro s lo m ns h
  unfold checkInitialized
  split
  · simp only [yields_steps]
    exact ⟨fun _ => ⟨fun _ => h, fun _ => ⟨fun _ => h, fun _ => h⟩⟩, fun _ => h⟩
  · simp only [yields_steps]
    exact h

section

variable (hg : Grammar.Sound source g)
include hg

theorem declarator_sound (constant inHead : Bool) : Sound source (declarator g constant inHead) := by
  intro s hs
  simp -zeta only [declarator, yields_steps]
  extract_lets start name
  simp -zeta only [yields_steps]
  refine hg.pattern.push hs.begin fun target t ht => ?_
  simp -zeta only [yields_steps]
  clear_value name
  extract_lets typed
  have htyped (u : State) (hu : Laid source s.token.span.start true u [target]) :
      Yields (typed ()) (Done source s.token.span.start) u := by
    simp -zeta only [typed, yields_steps]
    refine (typeMark_emits hg).run hu fun type u hu => ?_
    simp -zeta only [yields_steps]
    extract_lets finish
    have hfinish (init : List Node) (v : State)
        (hv : Laid source s.token.span.start true v (target :: (type ++ init))) :
        Yields (finish init) (Done source s.token.span.start) v := by
      simp only [finish, yields_steps]
      have hdeclared := hv.plain (n := .declarator ⟨s.token.span.start, v.lastStop⟩ name
        (target :: type) init) rfl rfl rfl
      refine ⟨fun _ => ?_, fun _ => hdeclared⟩
      refine (checkInitialized_passes _ _).run hdeclared fun _ w hw => ?_
      simp only [yields_steps]
      exact hw
    clear_value finish
    simp only [yields_steps, yields_eat]
    refine ⟨fun hx => ?_, fun _ => hfinish [] u (by simpa using hu)⟩
    refine (hg.assignment true).push (hu.eat hx) fun e v hv => ?_
    simp only [yields_steps]
    exact hfinish [e] v hv
  clear_value typed
  simp only [yields_steps]
  refine ⟨fun hx => ?_, fun _ => htyped t ht⟩
  simp only [Bool.and_eq_true] at hx
  exact htyped _ (ht.eat hx.1.2)

theorem declarators_emits (constant inHead : Bool) :
    Emits source true (declarators g constant inHead) fun ns => ns := by
  intro s lo m ns h
  simp only [declarators, yields_steps]
  refine (declarator_sound hg constant inHead).push h fun first t ht => ?_
  simp only [yields_steps]
  refine (emits_commas (declarator_sound hg constant inHead).emits).run ht fun rest u hu => ?_
  simp only [yields_steps]
  simpa using hu

theorem bindings_run (h : Laid source start m s []) (hsolid : s.token.lexeme.isSolid = true) :
    Yields (bindings g start) (Done source start) s := by
  simp only [bindings, yields_steps]
  refine (declarators_emits hg _ false).run (h.next hsolid) fun vars t ht => ?_
  simp only [yields_steps]
  refine passes_terminator.run ht fun _ u hu => ?_
  simp only [yields_steps]
  exact hu.plain rfl rfl rfl

theorem enumeration_run (constant : Bool) (h : Laid source start m s []) :
    Yields (enumeration g start constant) (Done source start) s := by
  simp only [enumeration, yields_steps]
  intro hx
  refine bindingName_passes.run (h.eat hx) fun _ t ht => ?_
  simp only [yields_steps]
  intro hx
  refine emits_separated (fun u hu => ?_) (by decide) (ht.eat hx) fun members u hu => ?_
  · simp only [yields_steps]
    refine key_run hg hu.begin fun k v hv _ => ?_
    simp only [yields_steps]
    refine (initializer_emits hg).run hv fun init w hw => ?_
    simp only [yields_steps]
    exact hw.plain rfl rfl rfl
  · simp only [yields_steps]
    intro hx
    split
    · exact (hu.eat hx).plain rfl rfl rfl
    · exact (hu.eat hx).plain rfl rfl rfl

theorem interface_run (h : Laid source start m s []) :
    Yields (interface g start) (Done source start) s := by
  simp only [interface, yields_steps]
  intro hx
  refine bindingName_passes.run (h.eat hx) fun _ t ht => ?_
  simp only [yields_steps]
  refine (typeParameters_emits hg).run ht fun generics t ht => ?_
  simp only [yields_steps]
  refine (heritage_emits hg).run ht fun bases t ht => ?_
  simp only [yields_steps]
  refine (typeMembers_emits hg).run ht fun members t ht => ?_
  simp only [yields_steps]
  exact ht.plain rfl rfl rfl

theorem typeAlias_run (h : Laid source start m s []) :
    Yields (typeAlias g start) (Done source start) s := by
  simp only [typeAlias, yields_steps]
  intro hx
  refine bindingName_passes.run (h.eat hx) fun _ t ht => ?_
  simp only [yields_steps]
  refine (typeParameters_emits hg).run ht fun generics t ht => ?_
  simp only [yields_steps]
  intro hx
  refine (anyType_sound hg).push (ht.eat hx) fun type t ht => ?_
  simp only [yields_steps]
  refine passes_terminator.run ht fun _ t ht => ?_
  simp only [yields_steps]
  exact ht.plain rfl rfl rfl

theorem moduleBlock_run (h : Laid source start m s []) (hsolid : s.token.lexeme.isSolid = true) :
    Yields (moduleBlock g start) (Done source start) s := by
  simp only [moduleBlock, yields_steps]
  have hnext := h.next hsolid
  split
  · rename_i value hl
    have hstring := hnext.append
      (hnext.placed.leaf (n := .string s.next.token.span value) (isSolid_of_eq hl rfl) rfl rfl rfl)
    simp only [yields_steps]
    refine ⟨fun _ => ?_, fun _ => ?_⟩
    · refine (block_emits hg).run hstring fun body t ht => ?_
      simp only [yields_steps]
      exact ht.plain rfl rfl rfl
    · refine passes_terminator.run hstring fun _ t ht => ?_
      simp only [yields_steps]
      exact ht.plain rfl rfl rfl
  · simp only [yields_steps]
    refine bindingName_passes.run hnext fun _ t ht => ?_
    simp only [yields_steps]
    refine passes_dotted.run ht fun _ t ht => ?_
    simp only [yields_steps]
    refine (block_emits hg).run ht fun body t ht => ?_
    simp only [yields_steps]
    exact ht.plain rfl rfl rfl

omit hg in
theorem importEquals_run (h : Laid source start m s []) :
    Yields (importEquals start) (Done source start) s := by
  simp -zeta only [importEquals, yields_steps]
  refine bindingName_passes.run h fun _ t ht => ?_
  simp -zeta only [yields_steps]
  intro hx
  extract_lets finish
  have hfinish (parts : List Node) (u : State) (hu : Laid source start true u parts) :
      Yields (finish parts) (Done source start) u := by
    simp only [finish, yields_steps]
    refine passes_terminator.run hu fun _ v hv => ?_
    simp only [yields_steps]
    exact hv.plain rfl rfl rfl
  clear_value finish
  simp only [yields_steps]
  refine ⟨fun hrequire hopen => ?_, fun _ => ?_⟩
  · rw [Bool.and_eq_true] at hrequire
    have hcall := ((ht.eat hx).eat hrequire.1).eat hopen
    split
    · rename_i value hl
      simp only [yields_steps]
      intro hclose
      have hstring := hcall.append (hcall.placed.leaf (n := .string _ value)
        (isSolid_of_eq hl rfl) rfl rfl rfl)
      exact hfinish _ _ (hstring.eat hclose)
    · simp only [yields_steps]
  · refine entityName_sound.push (ht.eat hx) fun name u hu => ?_
    simp only [yields_steps]
    exact hfinish _ u hu

/-- A declaration with the decorators before it, which only a class keeps. -/
theorem declaration_run {more : List Node} (hmarks : Marked source lo start marks)
    (h : Laid source start m s more) :
    Yields (declaration g start (marks ++ more)) (Declared source lo start marks) s := by
  simp only [declaration, yields_steps]
  refine (passes_many (fun t => t.token.isAny ("static" :: declarationModifiers) = true)
    (fun t => ?_) (fun t lo m ns hx ht => ?_)).run h fun words t ht => ?_
  · simp only [yields_steps]
    exact ⟨trivial, id⟩
  · simp only [yields_steps]
    exact ht.eatAny hx
  simp only [yields_steps]
  rw [yields_within]
  -- a scope is no part of the layout
  change Yields _ (Declared source lo start marks) _
  generalize hu : t.inScope _ = u
  have hmore : Laid source start m u more := by
    rw [← hu]
    exact ht
  have hnone : Laid source start m u [] := hmore.sublist (List.nil_sublist _)
  clear ht hu
  have plain {p : Parser Node} {v : State} (hp : Yields p (Done source start) v) :
      Yields p (Declared source lo start marks) v :=
    hp.mono fun _ _ hn => hmarks.declared hn
  simp only [yields_steps]
  refine ⟨fun hx => ?_, fun _ => ⟨fun hx => plain (bindings_run hg hnone (isSolid_of_isAny hx)),
    fun _ => ⟨fun _ => plain (functionFrom_run hg _ _ hnone), fun _ => ⟨fun _ =>
      classFrom_run hg hmarks hmore, fun _ => ⟨fun _ => plain (enumeration_run hg false hnone),
        fun _ => ⟨fun _ => plain (interface_run hg hnone), fun _ => ⟨fun _ =>
          plain (typeAlias_run hg hnone), fun _ => ⟨fun hx =>
            plain (moduleBlock_run hg hnone (isSolid_of_isAny hx)), fun _ => ⟨fun hx => ?_,
              fun _ => ⟨fun hx => plain (importEquals_run (hnone.eat hx)), fun _ => trivial⟩⟩⟩⟩⟩⟩⟩⟩⟩⟩
  · rw [Bool.and_eq_true] at hx
    exact plain (enumeration_run hg true (hnone.eat hx.1))
  · refine (block_emits hg).run (hnone.eat hx) fun body v hv => ?_
    simp only [yields_steps]
    exact hmarks.declared (hv.plain rfl rfl rfl)

end

end Parser

end Codemod
