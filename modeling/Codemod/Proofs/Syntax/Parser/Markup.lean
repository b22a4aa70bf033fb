import Codemod.Syntax.Parser.Markup
import Codemod.Proofs.Syntax.Parser.Type

/-!
# Codemod.Proofs.Syntax.Parser.Markup

The layout of elements and fragments.

Between tags the text is read in another way, and blanks may stand at its ends, so what is known
there is less (`Content`): a trail of nodes, but not that something ends where the last token does.
-/

namespace Codemod

namespace Parser

variable {source : Text} {g : Grammar} {lo start : Nat} {m inside : Bool} {s t : State}
  {ns ms : List Node} {n : Node}

/-- Since `lo` the nodes `ns` were read, and the parser stands between tags. -/
def Content (source : Text) (lo : Nat) (s : State) (ns : List Node) : Prop :=
  Standing source s ∧ Trail source lo s ns

theorem Content.next (h : Content source lo s ns) (ht : s.token.lexeme.isSolid = true) :
    Laid source lo true s.next ns :=
  ⟨⟨h.1.past Lexer.read_of, Lexer.read_semicolon _ _⟩, .inl ⟨h.2.past h.1, h.1.closes ht⟩⟩

theorem Content.past (h : Content source lo s ns) :
    Content source lo (s.past Lexer.readMarkupChild) ns :=
  ⟨h.1.past Lexer.readMarkupChild_of, h.2.past h.1⟩

theorem Left.content (h : Left source inside lo s ns) : Content source lo s ns :=
  ⟨h.1, h.2.2.1⟩

theorem Left.laid (h : Left source false lo s ns) : Laid source lo true s ns :=
  ⟨h.2.1 rfl, .inl ⟨h.2.2.1, h.2.2.2⟩⟩

theorem Left.plain (h : Left source inside lo s ns) (hspan : n.span = ⟨lo, s.lastStop⟩)
    (hchildren : n.children = ns) (hn : isPlain n = true) : Left source inside lo s [n] :=
  ⟨h.1, h.2.1, h.2.2.1.plain h.2.2.2 hspan hchildren hn, h.2.2.2⟩

/-- Markup that was read since the current token began comes behind the earlier nodes. -/
theorem Content.append (h : Content source lo s ns)
    (h' : Left source inside s.token.span.start t ms) : Content source lo t (ns ++ ms) :=
  ⟨h'.1, h.2.append h.1.le h'.2.2.1⟩

/-- A node around what was read, which ends before the parser stands. -/
theorem Laid.around (h : Laid source lo true s [n]) :
    Laid source lo true s [.other ⟨lo, n.span.stop⟩ [n]] := by
  obtain ⟨hlt, hopens, hrow, htidy⟩ := h.trail
  have hwithin := hrow.within n (List.mem_singleton_self n)
  have hn := htidy n (List.mem_singleton_self n)
  have hself := hwithin n (Node.mem_postorder_self n)
  have hsharp : Span.Sharp source ⟨lo, n.span.stop⟩ := by
    have := hn.sharp.lt
    exact ⟨by show lo < n.span.stop; omega, hopens, hn.sharp.closes⟩
  have hparts : Node.Row lo n.span.stop [n] :=
    .single (fun c hc => ⟨(hwithin c hc).1, hn.stop_le hc⟩) (Nat.le_of_lt hsharp.lt)
  refine ⟨h.placed, .inl ⟨⟨hlt, hopens, .single ?_ hrow.le, ?_⟩, h.closes⟩⟩
  · refine Node.within_iff.mpr ⟨⟨Nat.le_refl _, hself.2⟩, ?_⟩
    exact hrow.within
  · simp only [List.mem_singleton, forall_eq]
    refine Node.tidy_iff.mpr ⟨⟨hsharp, hparts⟩, htidy⟩

theorem leave_run {x : String} {Q : Unit → State → Prop} (h : Laid source lo m s ns)
    (k : ∀ t, Left source inside lo t ns → Q () t) : Yields (leave x inside) Q s := by
  simp only [leave, yields_steps]
  refine ⟨fun hx => k _ ?_, fun _ => trivial⟩
  have hsolid := isSolid_of_is hx
  cases inside with
  | false =>
    have hnext := h.next hsolid
    exact ⟨hnext.placed.standing, fun _ => hnext.placed, hnext.trail, hnext.closes⟩
  | true =>
    have hstanding := h.placed.standing
    refine ⟨hstanding.past Lexer.readMarkupChild_of, nofun, ?_, hstanding.closes hsolid⟩
    exact (h.next hsolid).trail

/-- A name in markup is the current token, read again. -/
theorem markupWord_run {Q : Span × String → State → Prop} (h : Laid source lo m s ns)
    (k : ∀ name t, Laid source lo true t ns → Laid source s.token.span.start true t [] →
      Q (⟨s.token.span.start, t.lastStop⟩, name) t) : Yields markupWord Q s := by
  simp only [markupWord, yields_steps]
  refine ⟨fun _ => trivial, fun hword => ?_⟩
  split
  · rename_i name escaped hl
    simp only [yields_steps]
    refine ⟨fun _ => trivial, fun hne => ?_⟩
    have hread := Lexer.readMarkupName_at hl (by simpa using hne)
    have hhead := h.placed.head_ne_of_isWord (by simpa using hword)
    have hsolid := isSolid_of_eq hl rfl
    exact k name _ ((h.again hread hhead).next hsolid)
      ((h.placed.begin.again hread hhead).next hsolid)
  · simp only [yields_steps]

theorem tagName_emits : Emits source true tagName TagName.parts := by
  intro s lo m ns h
  simp -zeta only [tagName, yields_steps]
  refine markupWord_run h fun name t ht hword => ?_
  simp -zeta only [yields_steps, yields_eat]
  refine ⟨fun hx => ?_, fun _ => ?_⟩
  · refine markupWord_run (ht.eat hx) fun _ u hu _ => ?_
    simp only [yields_steps]
    simpa using hu
  extract_lets head
  have hhead : Laid source lo true t (ns ++ [head]) := by
    refine h.append (hword.plain ?_ ?_ ?_) <;> simp only [head] <;> split <;> rfl
  clear_value head
  simp only [yields_steps]
  refine ⟨fun _ => ?_, fun _ => ⟨fun _ => hhead, fun _ => ?_⟩⟩
  · refine yields_repeatFrom (fun _ u => Laid source lo true u (ns ++ [head])) ?_ hhead
    intro spelling u hu
    simp only [yields_steps, yields_eat]
    refine ⟨fun hx => ?_, fun _ => hu⟩
    refine markupWord_run (hu.eat hx) fun _ v hv _ => ?_
    simp only [yields_steps]
    exact hv
  · show Laid source lo true t (ns ++ if isComponentName name then [head] else [])
    split
    · exact hhead
    · simpa using ht

section

variable (hg : Grammar.Sound source g)
include hg

theorem markupExpression_sound : Sound source (markupExpression g) := by
  intro s hs
  simp only [markupExpression, yields_steps]
  refine (inner_sound hg).push hs.begin fun e t ht => ?_
  simp only [yields_steps]
  exact ⟨fun _ => trivial, fun _ => ht⟩

theorem attributeValue_sound : Sound source (attributeValue g) := by
  intro s hs
  simp only [attributeValue, yields_steps]
  split
  · rename_i value hl
    simp only [yields_steps]
    exact hs.leaf (isSolid_of_eq hl rfl) rfl rfl rfl
  · simp only [yields_steps]
    refine ⟨fun hx => ⟨fun _ => trivial, fun _ => ?_⟩, fun _ => ⟨fun hx => ?_, fun _ => trivial⟩⟩
    · refine (markupExpression_sound hg).push (hs.begin.eat hx) fun e t ht => ?_
      simp only [yields_steps]
      exact fun hx => (ht.eat hx).plain rfl rfl rfl
    · exact (hg.markup _ false _ (hs.begin.eat hx)).mono fun _ _ ht => ht.laid

theorem tagAttribute_sound : Sound source (tagAttribute g) := by
  intro s hs
  simp -zeta only [tagAttribute, yields_steps, yields_eat]
  refine ⟨fun hopen hdots => ?_, fun _ => ?_⟩
  · refine (markupExpression_sound hg).push ((hs.begin.eat hopen).eat hdots) fun e t ht => ?_
    simp only [yields_steps]
    exact fun hx => (ht.eat hx).plain rfl rfl rfl
  refine markupWord_run hs.begin fun _ t ht _ => ?_
  simp -zeta only [yields_steps]
  extract_lets value
  have hvalue (u : State) (hu : Laid source s.token.span.start true u []) :
      Yields (value ()) (Done source s.token.span.start) u := by
    simp only [value, yields_steps]
    refine ⟨fun hx => ?_, fun _ => hu.plain rfl rfl rfl⟩
    have hnext := hu.past (isSolid_of_is hx) Lexer.readMarkupString_of
      Lexer.readMarkupString_semicolon
    refine (attributeValue_sound hg).push hnext fun v w hw => ?_
    simp only [yields_steps]
    exact hw.plain rfl rfl rfl
  clear_value value
  simp only [yields_steps, yields_eat]
  refine ⟨fun hx => ?_, fun _ => hvalue t ht⟩
  refine markupWord_run (ht.eat hx) fun _ u hu _ => ?_
  simp only [yields_steps]
  exact hvalue u hu

/-- The content of an element, up to the end of its closing tag. -/
theorem content_run (h : Content source lo s ns) :
    Yields (content g inside) (fun r t => Left source inside lo t
      (ns ++ r.1 ++ (r.2.1.map TagName.parts).getD [])) s := by
  refine yields_repeatFrom (fun parts t => Content source lo t (ns ++ parts.reverse)) ?_
    (by simpa using h)
  intro parts t ht
  simp only [yields_steps]
  split
  · simp only [yields_steps]
    exact ht.past
  · simp only [yields_steps]
    have hframe (x : String) (hx : t.token.is x = true) :
        Laid source t.token.span.start true t.next [] :=
      (ht.1.placed (isSolid_of_is hx)).begin.eat hx
    refine ⟨fun hx => ?_, fun _ => ⟨fun hx => ⟨fun _ => ?_, fun _ => ?_⟩, fun _ => trivial⟩⟩
    · simp only [yields_steps, yields_eat]
      have hopen := ht.next (isSolid_of_is hx)
      refine ⟨fun hslash => ⟨fun _ => ?_, fun _ => ?_⟩, fun _ => ?_⟩
      · refine leave_run (hopen.eat hslash) fun u hu => ?_
        simp only [yields_steps]
        simpa using hu
      · refine tagName_emits.run (hopen.eat hslash) fun name u hu => ?_
        simp only [yields_steps]
        refine leave_run hu fun v hv => ?_
        simp only [yields_steps]
        simpa using hv
      · refine (hg.markup _ true _ (hframe _ hx)).mono fun child u hu => ?_
        simp only [yields_steps]
        simpa using ht.append hu
    · refine leave_run (ht.next (isSolid_of_is hx)) fun u hu => ?_
      simp only [yields_steps]
      exact hu.content
    · refine (passes_eat "...").run (hframe _ hx) fun _ u hu => ?_
      simp only [yields_steps]
      refine (markupExpression_sound hg).push hu fun e v hv => ?_
      simp only [yields_steps]
      refine leave_run hv.around fun w hw => ?_
      simp only [yields_steps]
      simpa using ht.append hw

theorem markup_run (h : Laid source start true s []) :
    Yields (markup g start inside) (fun n t => Left source inside start t [n]) s := by
  simp -zeta only [markup, yields_steps]
  refine ⟨fun _ => ?_, fun _ => ?_⟩
  · refine leave_run h fun t ht => ?_
    simp only [yields_steps]
    refine (content_run hg ht.content).mono fun r u hu => ?_
    obtain ⟨parts, closing, closingStart⟩ := r
    simp only [yields_steps]
    refine ⟨fun _ => trivial, fun hnone => ?_⟩
    obtain rfl : closing = none := by simpa using hnone
    exact hu.plain rfl (by simp [Node.children]) rfl
  refine tagName_emits.run h fun name t ht => ?_
  simp -zeta only [yields_steps]
  extract_lets rest
  have hrest (types : List Node) (u : State)
      (hu : Laid source start true u (name.parts ++ types)) :
      Yields (rest types) (fun n t => Left source inside start t [n]) u := by
    simp only [rest, yields_steps]
    refine (emits_many_nodes (fun v => ?_) (tagAttribute_sound hg)).run hu
      fun attributes v hv => ?_
    · simp only [yields_steps]
    simp only [yields_steps, yields_eat]
    refine ⟨fun hx => ?_, fun _ => ?_⟩
    · refine leave_run (hv.eat hx) fun w hw => ?_
      simp only [yields_steps]
      exact hw.plain rfl rfl rfl
    · refine leave_run hv fun w hw => ?_
      simp only [yields_steps]
      refine (content_run hg hw.content).mono fun r x hx => ?_
      obtain ⟨parts, closing, closingStart⟩ := r
      simp only [yields_steps]
      split
      · simp only [yields_steps]
      · rename_i closing
        have helement := hx.plain (n := .element ⟨start, x.lastStop⟩ name.name
          (name.parts ++ types ++ attributes ++ parts ++ closing.parts)) rfl rfl rfl
        simp only [yields_steps]
        exact ⟨fun _ => helement, fun _ => helement⟩
  clear_value rest
  simp only [seesTypeArguments, yields_steps]
  refine ⟨fun hx => ?_, fun _ => hrest [] t (by simpa using ht)⟩
  rw [Bool.and_eq_true] at hx
  refine typeArguments_run hg ht hx.2 fun types u hu => ?_
  simp only [yields_steps]
  exact hrest types u hu

end

end Parser

end Codemod
