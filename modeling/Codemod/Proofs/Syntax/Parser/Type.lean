import Codemod.Syntax.Parser.Type
import Codemod.Proofs.Syntax.Parser.Binding

/-!
# Codemod.Proofs.Syntax.Parser.Type

The layout of types, type parameters and type arguments.
-/

namespace Codemod

namespace Parser

variable {source : Text} {g : Grammar} {lo : Nat} {m : Bool} {s : State} {ns : List Node}

section Looks

theorem steady_seesFunctionType (g : Grammar) : Steady (seesFunctionType g) := by
  intro s
  simp only [seesFunctionType, yields_steps]
  refine ⟨fun _ => trivial, fun _ => ⟨fun _ => ?_, fun _ => ⟨fun _ => trivial, fun _ => trivial⟩⟩⟩
  exact steady_ahead _ s

theorem steady_seesIndexSignature : Steady seesIndexSignature :=
  steady_ahead _

theorem steady_seesMappedType : Steady seesMappedType :=
  steady_ahead _

end Looks

/-- Where a list of type arguments begins, the current token is read as a single `<`. -/
theorem Laid.oneAngle (h : Laid source lo m s ns) (hx : s.token.isAny ["<", "<<"] = true) :
    Laid source lo m (s.again Lexer.readOneAngle) ns := by
  obtain ⟨x, hmem, hx⟩ := List.any_eq_true.mp hx
  have hhere := h.placed.standing.here_eq hx
  simp only [List.mem_cons, List.not_mem_nil, or_false] at hmem
  rcases hmem with rfl | rfl
  · exact h.again (Lexer.readOneAngle_at hhere) (by simp [hhere])
  · exact h.again (Lexer.readOneAngle_at hhere) (by simp [hhere])

/-- A loop that attaches something to a node again and again, from `start` on. -/
theorem yields_attach {start : Nat} {first : Node} {step : Node → Parser (Node ⊕ Node)}
    {Q : Node → State → Prop}
    (hstep : ∀ left t, Laid source start true t [left] → Yields (step left)
      (fun r u => Sum.elim (fun n => Laid source start true u [n]) (fun n => Q n u) r) t)
    (h : Laid source start true s [first]) : Yields (repeatFrom first step) Q s :=
  yields_repeatFrom (fun left t => Laid source start true t [left]) hstep h

/-- Where a substitution ends, the current token is read as the template text after it. -/
theorem Laid.templateRest (h : Laid source lo m s ns) (hx : s.token.is rbrace = true) :
    Laid source lo m (s.again Lexer.readTemplateRest) ns := by
  have hhere := h.placed.standing.here_eq hx
  exact h.again (Lexer.readTemplateRest_at hhere) (by simp [hhere, rbrace])

section

variable (hg : Grammar.Sound source g)
include hg

theorem anyType_sound : Sound source (anyType g) :=
  hg.type.within _

theorem typeArguments_run {Q : List Node → State → Prop} (h : Laid source lo m s ns)
    (hx : s.token.isAny ["<", "<<"] = true)
    (k : ∀ types t, Laid source lo true t (ns ++ types) → Q types t) :
    Yields (typeArguments g) Q s := by
  simp only [typeArguments, yields_steps]
  intro hopen
  refine emits_separated (anyType_sound hg) (by decide) ((h.oneAngle hx).eat hopen)
    fun types t ht => ?_
  simp only [yields_steps]
  exact ⟨fun _ hclose => k types _ (ht.eat hclose), fun _ hclose => k types _ (ht.eat hclose)⟩

theorem typeArgumentsHere_emits : Emits source false (typeArgumentsHere g) fun ns => ns := by
  intro s lo m ns h
  simp only [typeArgumentsHere, seesTypeArguments, yields_steps]
  refine ⟨fun hx => ?_, fun _ => by simpa using h⟩
  rw [Bool.and_eq_true] at hx
  exact typeArguments_run hg h hx.2 fun types t ht => ht.weaken

omit hg in
theorem entityName_sound : Sound source entityName := by
  intro s hs
  simp -zeta only [entityName, yields_steps]
  extract_lets attached
  have hattached (first : Node) (t : State) (ht : Done source s.token.span.start first t) :
      Yields (attached first) (Done source s.token.span.start) t := by
    refine yields_attach (fun left u hu => ?_) ht
    simp only [yields_steps]
    refine ⟨fun _ => hu, fun hx => ?_⟩
    have hdot := hu.eat (x := ".") (by simpa using hx)
    split
    · rename_i name escaped hl
      simp only [yields_steps]
      exact (hdot.next (isSolid_of_eq hl rfl)).plain rfl rfl rfl
    · rename_i name hl
      simp only [yields_steps]
      exact (hdot.next (isSolid_of_eq hl rfl)).plain rfl rfl rfl
    · simp only [yields_steps]
  clear_value attached
  simp only [yields_steps]
  refine ⟨fun hx => hattached _ _ (hs.leaf (isSolid_of_is hx) rfl rfl rfl), fun _ => ?_⟩
  refine referenceName_sound.push hs.begin fun n t ht => ?_
  simp only [yields_steps]
  exact hattached n t ht

theorem typeParameters_emits : Emits source false (typeParameters g) fun ns => ns := by
  intro s lo m ns h
  simp -zeta only [typeParameters, yields_steps]
  refine ⟨fun _ => by simpa using h, fun hx => ?_⟩
  have hopen : s.token.is "<" = true := by
    simp only [Bool.or_eq_true, not_or, Bool.not_eq_true', Bool.not_eq_false] at hx
    exact hx.2
  refine emits_separated ?_ (by decide) (h.eat hopen) fun ps t ht => ?_
  · intro s hs
    simp -zeta only [yields_steps]
    refine (passes_many_advance fun t => ?_).run hs.begin fun _ t ht => ?_
    · simp only [yields_steps]
      exact ⟨fun hx => ⟨trivial, fun _ => isSolid_of_isAny hx⟩, fun _ => ⟨trivial, nofun⟩⟩
    simp -zeta only [yields_steps]
    refine bindingName_passes.run ht fun _ t ht => ?_
    simp -zeta only [yields_steps]
    extract_lets afterBound
    have hafter (bound : List Node) (u : State)
        (hu : Laid source s.token.span.start true u bound) :
        Yields (afterBound bound) (Done source s.token.span.start) u := by
      simp only [afterBound, yields_steps, yields_eat]
      refine ⟨fun hx => ?_, fun _ => hu.plain rfl (by simp [Node.children]) rfl⟩
      refine (anyType_sound hg).push (hu.eat hx) fun type v hv => ?_
      simp only [yields_steps]
      exact hv.plain rfl rfl rfl
    clear_value afterBound
    simp only [yields_steps, yields_eat]
    refine ⟨fun hx => ?_, fun _ => hafter [] t ht⟩
    refine (anyType_sound hg).push (ht.eat hx) fun type v hv => ?_
    simp only [yields_steps]
    exact hafter [type] v hv
  · simp only [yields_steps]
    exact fun hx => (ht.eat hx).weaken

theorem resultType_sound : Sound source (resultType g) := by
  intro s hs
  simp only [resultType, yields_steps]
  refine ⟨fun hx => ?_, fun _ => ⟨fun hx => ?_, fun _ => anyType_sound hg s hs⟩⟩
  · simp only [Bool.and_eq_true, Bool.or_eq_true] at hx
    have hsecond : Laid source s.token.span.start true s.next.next [] := by
      rcases hx.2.2 with hname | hthis
      · exact (hs.begin.eat hx.1).next (isSolid_of_isName hname)
      · exact (hs.begin.eat hx.1).eat hthis
    refine ⟨fun hx => ?_, fun _ => hsecond.plain rfl rfl rfl⟩
    rw [Bool.and_eq_true] at hx
    refine (anyType_sound hg).push (hsecond.eat hx.1) fun type t ht => ?_
    simp only [yields_steps]
    exact ht.plain rfl rfl rfl
  · simp only [Bool.and_eq_true, Bool.or_eq_true] at hx
    have hfirst : Laid source s.token.span.start true s.next [] := by
      rcases hx.1 with hname | hthis
      · exact hs.begin.next (isSolid_of_isName hname)
      · exact hs.begin.eat hthis
    refine (anyType_sound hg).push (hfirst.eat hx.2.2) fun type t ht => ?_
    simp only [yields_steps]
    exact ht.plain rfl rfl rfl

theorem typedResult_emits : Emits source false (typedResult g) fun ns => ns := by
  intro s lo m ns h
  simp only [typedResult, yields_steps]
  refine ⟨fun hx => ?_, fun _ => by simpa using h⟩
  rw [Bool.and_eq_true] at hx
  refine (resultType_sound hg).push (h.eat hx.2) fun type t ht => ?_
  simp only [yields_steps]
  exact ht.weaken

theorem functionType_sound : Sound source (functionType g) := by
  intro s hs
  simp only [functionType, yields_steps]
  refine (passes_eat "abstract").run hs.begin fun _ t ht => ?_
  simp only [yields_steps]
  refine (passes_eat "new").run ht fun _ t ht => ?_
  simp only [yields_steps]
  refine (typeParameters_emits hg).run ht fun generics t ht => ?_
  simp only [yields_steps]
  refine (parameters_emits hg).run ht fun ps t ht => ?_
  simp only [yields_steps]
  intro hx
  refine (resultType_sound hg).push (ht.eat hx) fun result t ht => ?_
  simp only [yields_steps]
  exact ht.plain rfl rfl rfl

omit hg in
theorem passes_memberEnd : Passes source false memberEnd := by
  intro s lo m ns h
  simp only [memberEnd, yields_steps, yields_eat]
  exact ⟨fun hx => (h.eat hx).weaken, fun _ => passes_terminator s lo m ns h⟩

theorem indexSignature_emits : Emits source true (indexSignature g) fun ns => ns := by
  intro s lo m ns h
  simp only [indexSignature, yields_steps]
  intro hx
  refine emits_separated (parameter_sound hg) (by decide) (h.eat hx) fun ps t ht => ?_
  simp only [yields_steps]
  intro hx
  refine (typeMark_emits hg).run (ht.eat hx) fun type u hu => ?_
  simp only [yields_steps]
  simpa using hu

theorem typeMember_sound : Sound source (typeMember g) := by
  intro s hs
  simp -zeta only [typeMember, yields_steps]
  extract_lets signature finish named
  have hsignature : Emits source true signature fun ns => ns := by
    intro t lo m ns ht
    simp only [signature, yields_steps]
    refine (typeParameters_emits hg).run ht fun generics u hu => ?_
    simp only [yields_steps]
    refine (parameters_emits hg).run hu fun ps v hv => ?_
    simp only [yields_steps]
    refine (typedResult_emits hg).run hv fun result w hw => ?_
    simp only [yields_steps]
    simpa using hw
  have hfinish (parts : List Node) (t : State)
      (ht : Laid source s.token.span.start true t parts) :
      Yields (finish parts) (Done source s.token.span.start) t := by
    simp only [finish, yields_steps]
    refine passes_memberEnd.run ht fun _ u hu => ?_
    simp only [yields_steps]
    exact hu.plain rfl rfl rfl
  have hnamed (u : State) (hu : Laid source s.token.span.start false u []) :
      Yields (named ()) (Done source s.token.span.start) u := by
    simp only [named, yields_steps]
    clear_value signature finish
    refine key_run hg hu fun k v hv _ => ?_
    simp only [yields_steps]
    refine (passes_eat "?").run hv fun _ v hv => ?_
    simp only [yields_steps]
    refine ⟨fun _ => ?_, fun _ => ?_⟩
    · refine hsignature.run hv fun rest w hw => ?_
      simp only [yields_steps]
      exact hfinish _ w hw
    · refine (typeMark_emits hg).run hv fun type w hw => ?_
      simp only [yields_steps]
      exact hfinish _ w hw
  clear_value signature finish named
  simp -zeta only [yields_steps]
  refine ⟨fun _ => ?_, fun _ => ⟨fun hx => ?_, fun _ => ?_⟩⟩
  · refine hsignature.run hs.begin fun parts t ht => ?_
    simp only [yields_steps]
    exact hfinish parts t ht
  · rw [Bool.and_eq_true] at hx
    refine hsignature.run (hs.begin.eat hx.1) fun parts t ht => ?_
    simp only [yields_steps]
    exact hfinish parts t ht
  · refine (passes_many_advance fun t => ?_).run hs.begin fun _ t ht => ?_
    · simp only [yields_steps]
      exact ⟨fun hx => ⟨trivial, fun _ => isSolid_of_isAny hx⟩, fun _ => ⟨trivial, nofun⟩⟩
    simp -zeta only [yields_steps]
    refine steady_seesIndexSignature.run fun b => ?_
    simp -zeta only [yields_steps]
    refine ⟨fun _ => ?_, fun _ => ⟨fun hx => ?_, fun _ => hnamed _ ht⟩⟩
    · refine (indexSignature_emits hg).run ht fun parts u hu => ?_
      simp only [yields_steps]
      exact hfinish parts u hu
    · rw [Bool.and_eq_true] at hx
      exact hnamed _ (ht.eatAny hx.1).weaken

theorem typeMembers_emits : Emits source true (typeMembers g) fun ns => ns := by
  intro s lo m ns h
  simp only [typeMembers, yields_steps]
  intro hx
  refine (emits_itemsUntil (typeMember_sound hg)).run (h.eat hx) fun members t ht => ?_
  simp only [yields_steps]
  exact fun hx => ht.eat hx

theorem mappedType_sound : Sound source (mappedType g) := by
  intro s hs
  simp -zeta only [mappedType, yields_steps]
  intro hopen
  extract_lets header
  have hheader (t : State) (ht : Laid source s.token.span.start true t []) :
      Yields (header ()) (Done source s.token.span.start) t := by
    simp -zeta only [header, yields_steps]
    refine (passes_eat "readonly").run ht fun _ t ht => ?_
    simp -zeta only [yields_steps]
    intro hx
    refine bindingName_passes.run (ht.eat hx) fun _ t ht => ?_
    simp -zeta only [yields_steps]
    intro hx
    refine (anyType_sound hg).push (ht.eat hx) fun keys t ht => ?_
    simp -zeta only [yields_steps]
    extract_lets body
    have hbody (renamed : List Node) (u : State)
        (hu : Laid source s.token.span.start true u (keys :: renamed)) :
        Yields (body renamed) (Done source s.token.span.start) u := by
      simp -zeta only [body, yields_steps]
      intro hx
      replace hu := hu.eat hx
      extract_lets finish value
      have hfinish (type : List Node) (v : State)
          (hv : Laid source s.token.span.start true v (keys :: (renamed ++ type))) :
          Yields (finish type) (Done source s.token.span.start) v := by
        simp only [finish, yields_steps]
        refine ⟨fun _ => ?_, fun _ hx => (hv.eat hx).plain rfl rfl rfl⟩
        refine passes_terminator.run hv fun _ v hv => ?_
        simp only [yields_steps]
        exact fun hx => (hv.eat hx).plain rfl rfl rfl
      have hvalue (v : State)
          (hv : Laid source s.token.span.start true v (keys :: renamed)) :
          Yields (value ()) (Done source s.token.span.start) v := by
        simp only [value, yields_steps]
        clear_value finish
        refine (passes_eat "?").run hv fun _ v hv => ?_
        simp only [yields_steps, yields_eat]
        refine ⟨fun hx => ?_, fun _ => hfinish [] v (by simpa using hv)⟩
        refine (anyType_sound hg).push (hv.eat hx) fun type w hw => ?_
        simp only [yields_steps]
        exact hfinish [type] w hw
      clear_value value finish
      simp only [yields_steps]
      exact ⟨fun hx => hvalue _ (hu.eatAny hx), fun _ => hvalue _ hu⟩
    clear_value body
    simp only [yields_steps, yields_eat]
    refine ⟨fun hx => ?_, fun _ => hbody [] t ht⟩
    refine (anyType_sound hg).push (ht.eat hx) fun type v hv => ?_
    simp only [yields_steps]
    exact hbody [type] v hv
  clear_value header
  simp only [yields_steps]
  have hstart := hs.begin.eat hopen
  exact ⟨fun hx => hheader _ (hstart.eatAny hx), fun _ => hheader _ hstart⟩

theorem tupleElement_sound : Sound source (tupleElement g) := by
  intro s hs
  simp -zeta only [tupleElement, yields_steps]
  refine (passes_eat "...").run hs.begin fun _ t ht => ?_
  simp -zeta only [yields_steps]
  extract_lets element
  have helement (named : Bool) (hnamed : named = true → t.token.isWord = true) :
      Yields (element named) (Done source s.token.span.start) t := by
    simp only [element, yields_steps]
    refine ⟨fun hx => ?_, fun _ => ?_⟩
    · refine (passes_eat "?").run (ht.next (isSolid_of_isWord (hnamed hx))) fun _ u hu => ?_
      simp only [yields_steps]
      intro hx
      refine (anyType_sound hg).push (hu.eat hx) fun type v hv => ?_
      simp only [yields_steps]
      exact hv.plain rfl rfl rfl
    · refine (anyType_sound hg).push ht fun type u hu => ?_
      simp only [yields_steps]
      refine (passes_eat "?").run hu fun _ v hv => ?_
      simp only [yields_steps]
      exact hv.plain rfl rfl rfl
  clear_value element
  simp only [yields_steps]
  refine ⟨fun hword => ?_, fun _ => helement false nofun⟩
  exact (steady_ahead _).run fun named => helement named fun _ => hword

omit hg in
/-- Names behind dots. -/
theorem passes_dotted : Passes source false (many (sees ".") do
    advance
    if (← token).isWord then advance else unexpected) := by
  refine passes_many (fun t => t.token.is "." = true) (fun t => ?_) fun t lo m ns hdot ht => ?_
  · simp only [yields_steps]
    exact ⟨trivial, id⟩
  · simp only [yields_steps]
    exact ⟨fun hx => (ht.eat hdot).next (isSolid_of_isWord hx), fun _ => trivial⟩

theorem importType_sound : Sound source (importType g) := by
  intro s hs
  simp -zeta only [importType, yields_steps]
  intro himport hopen
  refine hg.type.push ((hs.begin.eat himport).eat hopen) fun from_ t ht => ?_
  simp -zeta only [yields_steps]
  extract_lets path
  have hpath (options : List Node) (u : State)
      (hu : Laid source s.token.span.start true u (from_ :: options)) :
      Yields (path options) (Done source s.token.span.start) u := by
    simp only [path, yields_steps]
    refine (passes_eat ",").run hu fun _ u hu => ?_
    simp only [yields_steps]
    intro hclose
    refine passes_dotted.run (hu.eat hclose) fun _ v hv => ?_
    simp only [yields_steps]
    refine (typeArgumentsHere_emits hg).run hv fun types w hw => ?_
    simp only [yields_steps]
    exact hw.plain rfl (by simp [Node.children]) rfl
  clear_value path
  simp only [yields_steps, yields_eat]
  refine ⟨fun hx => ⟨fun _ => ?_, fun _ => hpath [] _ (ht.eat hx)⟩,
    fun _ => ⟨?_, fun _ => hpath [] t ht⟩⟩
  · refine (inner_sound hg).push (ht.eat hx) fun options u hu => ?_
    simp only [yields_steps]
    exact hpath [options] u hu
  · intro hfalse
    simp at hfalse

theorem templateType_sound : Sound source (templateType g) := by
  intro s hs
  simp -zeta only [templateType, yields_steps]
  split
  · rename_i cooked hl
    simp only [yields_steps]
    exact hs.leaf (isSolid_of_eq hl rfl) rfl rfl rfl
  · simp only [yields_steps]
    refine yields_repeatFrom
      (fun types t => Laid source s.token.span.start false t types.reverse) ?_ hs.begin
    intro types t ht
    simp only [yields_steps]
    split
    · rename_i cooked hl
      simp only [yields_steps, Sum.elim_inr]
      exact (ht.next (isSolid_of_eq hl rfl)).plain rfl rfl rfl
    · rename_i cooked hl
      simp only [yields_steps]
      refine (anyType_sound hg).push (ht.next (isSolid_of_eq hl rfl)) fun type u hu => ?_
      simp only [yields_steps]
      refine ⟨fun _ => trivial, fun hx => ?_⟩
      have hx : u.token.is rbrace = true := by simpa using hx
      have := (hu.templateRest hx).weaken (m := false)
      simpa using this
    · simp only [yields_steps]

theorem simpleType_sound : Sound source (simpleType g) := by
  intro s hs
  simp -zeta only [simpleType, yields_steps]
  split
  · rename_i value hl
    simp only [yields_steps]
    exact hs.leaf (isSolid_of_eq hl rfl) rfl rfl rfl
  · rename_i hl
    simp only [yields_steps]
    exact hs.leaf (isSolid_of_eq hl rfl) rfl rfl rfl
  · exact templateType_sound hg s hs
  · rename_i x hl
    have hfirst := hs.begin.next (isSolid_of_eq hl rfl)
    simp only [yields_steps]
    refine ⟨fun _ => ⟨fun _ => trivial, fun hx => ?_⟩, fun _ => ⟨fun _ => ?_, fun _ =>
      ⟨fun _ => ?_, fun _ => ⟨fun _ => ?_, fun _ => trivial⟩⟩⟩⟩
    · have hl : s.next.token.lexeme = .number := by simpa using hx
      exact (hfirst.next (isSolid_of_eq hl rfl)).plain rfl rfl rfl
    · refine steady_seesMappedType.run fun mapped => ?_
      simp only [yields_steps]
      refine ⟨fun _ => mappedType_sound hg s hs, fun _ => ?_⟩
      refine (typeMembers_emits hg).run hs.begin fun members t ht => ?_
      simp only [yields_steps]
      exact ht.plain rfl rfl rfl
    · refine emits_separated (tupleElement_sound hg) (by decide) hfirst fun elements t ht => ?_
      simp only [yields_steps]
      exact fun hx => (ht.eat hx).plain rfl rfl rfl
    · refine (anyType_sound hg).push hfirst fun type t ht => ?_
      simp only [yields_steps]
      exact fun hx => (ht.eat hx).plain rfl rfl rfl
  · rename_i name escaped hl
    have hsolid := isSolid_of_eq hl rfl
    have hnamed (t : State) (ht : Laid source s.token.span.start false t []) :
        Yields (do
          let name ← entityName
          let types ← typeArgumentsHere g
          let span ← spanFrom s.token.span.start
          pure (Node.other span (name :: types))) (Done source s.token.span.start) t := by
      simp only [yields_steps]
      refine entityName_sound.push ht fun name u hu => ?_
      simp only [yields_steps]
      refine (typeArgumentsHere_emits hg).run hu fun types v hv => ?_
      simp only [yields_steps]
      exact hv.plain rfl rfl rfl
    simp only [yields_steps]
    refine ⟨fun _ => hs.leaf hsolid rfl rfl rfl, fun _ => ⟨fun _ => ⟨fun _ => ?_, fun _ => ?_⟩,
      fun _ => ⟨fun _ => ⟨fun _ => ?_, fun _ => ?_⟩, fun _ => ⟨fun _ => ?_, fun _ =>
        ⟨fun _ => ?_, fun _ => ⟨fun _ => ?_, fun _ => trivial⟩⟩⟩⟩⟩⟩
    · exact resultType_sound hg s hs
    · exact hs.leaf hsolid rfl rfl rfl
    · refine (importType_sound hg).push (hs.begin.next hsolid) fun type t ht => ?_
      simp only [yields_steps]
      exact ht.plain rfl rfl rfl
    · have := hnamed _ (hs.begin.next hsolid).weaken
      simpa only [yields_steps] using this
    · exact importType_sound hg s hs
    · exact resultType_sound hg s hs
    · have := hnamed s hs.begin
      simpa only [yields_steps] using this
  · simp only [yields_steps]

theorem postfixType_sound : Sound source (postfixType g) := by
  intro s hs
  simp only [postfixType, yields_steps]
  refine ((simpleType_sound hg).within _).push hs.begin fun first t ht => ?_
  simp only [yields_steps]
  refine yields_attach (fun left u hu => ?_) ht
  simp only [yields_steps]
  refine ⟨fun hx => ?_, fun _ => hu⟩
  rw [Bool.and_eq_true] at hx
  have hopen := hu.eat hx.1
  simp only [yields_eat]
  refine ⟨fun hx => ?_, fun _ => ?_⟩
  · simp only [yields_steps]
    exact (hopen.eat hx).plain rfl rfl rfl
  · simp only [yields_steps]
    refine (anyType_sound hg).push hopen fun index v hv => ?_
    simp only [yields_steps]
    exact fun hx => (hv.eat hx).plain rfl rfl rfl

theorem inferType_sound : Sound source (inferType g) := by
  intro s hs
  simp -zeta only [inferType, yields_steps]
  intro hx
  refine bindingName_passes.run (hs.begin.eat hx) fun _ t ht => ?_
  simp -zeta only [yields_steps]
  extract_lets finish
  have hfinish (bound : Option Node) (u : State)
      (hu : Laid source s.token.span.start true u bound.toList) :
      Yields (finish bound) (Done source s.token.span.start) u := by
    simp only [finish, yields_steps]
    exact hu.plain rfl rfl rfl
  clear_value finish
  simp only [yields_steps]
  refine ⟨fun hx => yields_attempt (hfinish none t ht) ?_, fun _ => hfinish none t ht⟩
  simp only [yields_steps]
  refine (hg.type.within _).push (ht.eat hx) fun type u hu => ?_
  simp only [yields_steps]
  exact ⟨fun _ => trivial, fun _ => hfinish (some type) u hu⟩

theorem operatorType_sound : Sound source (operatorType g) := by
  intro s hs
  simp only [operatorType, yields_steps]
  refine ⟨fun _ => inferType_sound hg s hs, fun _ => ?_⟩
  refine (passes_many_advance fun t => ?_).run hs.begin fun _ t ht => ?_
  · simp only [yields_steps]
    exact ⟨trivial, isSolid_of_isAny⟩
  simp only [yields_steps]
  refine ⟨fun _ => ?_, fun _ => ⟨fun _ => ?_, fun _ => ?_⟩⟩
  · exact (postfixType_sound hg).push ht fun _ _ hu => hu
  · exact (inferType_sound hg).push ht fun _ _ hu => hu
  · refine (postfixType_sound hg).push ht fun type u hu => ?_
    simp only [yields_steps]
    exact hu.plain rfl rfl rfl

theorem joinedTypes_sound (operator : String) {item : Parser Node} (hitem : Sound source item) :
    Sound source (joinedTypes g operator item) := by
  intro s hs
  simp -zeta only [joinedTypes, yields_steps]
  have hoperand : Sound source
      (do if ← seesFunctionType g then functionType g else item) := by
    intro t ht
    simp only [yields_steps]
    refine (steady_seesFunctionType g).run fun function => ?_
    simp only [yields_steps]
    exact ⟨fun _ => functionType_sound hg t ht, fun _ => hitem t ht⟩
  refine (passes_eat operator).run hs.begin fun led t ht => ?_
  simp -zeta only [yields_steps]
  extract_lets operand finish
  have hfinish (first : Node) (u : State) (hu : Done source s.token.span.start first u) :
      Yields (finish first) (Done source s.token.span.start) u := by
    simp only [finish, yields_steps]
    refine ⟨fun _ => hu, fun _ => ?_⟩
    refine (emits_many (f := fun n => [n]) (fun v => v.token.is operator = true) (fun v => ?_)
      (fun v lo m ns hx hv => ?_)).run hu fun rest v hv => ?_
    · simp only [yields_steps]
      exact ⟨trivial, id⟩
    · simp only [yields_steps]
      exact hoperand.push (hv.eat hx) fun _ _ hw => hw
    · simp only [yields_steps]
      exact hv.plain rfl (by simp [Node.children]) rfl
  clear_value finish
  simp only [yields_steps]
  refine ⟨fun _ => hoperand.push ht fun first u hu => ?_,
    fun _ => hitem.push ht fun first u hu => ?_⟩
  · simp only [yields_steps]
    exact hfinish first u hu
  · simp only [yields_steps]
    exact hfinish first u hu

theorem type_sound : Sound source (type g) := by
  intro s hs
  simp only [type, yields_steps]
  refine (steady_seesFunctionType g).run fun function => ?_
  simp only [yields_steps]
  refine ⟨fun _ => functionType_sound hg s hs, fun _ => ?_⟩
  have hjoined := joinedTypes_sound hg "|"
    (joinedTypes_sound hg "&" (operatorType_sound hg))
  refine hjoined.push hs.begin fun tested t ht => ?_
  simp only [yields_steps]
  refine ⟨fun _ => ht, fun hx => ?_⟩
  simp only [Bool.or_eq_true, not_or, Bool.not_eq_true', Bool.not_eq_false] at hx
  refine (hg.type.within _).push (ht.eat hx.2) fun bound t ht => ?_
  simp only [yields_steps]
  intro hx
  refine (anyType_sound hg).push (ht.eat hx) fun yes t ht => ?_
  simp only [yields_steps]
  intro hx
  refine (anyType_sound hg).push (ht.eat hx) fun no t ht => ?_
  simp only [yields_steps]
  exact ht.plain rfl rfl rfl

end

end Parser

end Codemod
