import Codemod.Syntax.Parser.Expression
import Codemod.Proofs.Syntax.Parser.Function
import Codemod.Proofs.Syntax.Parser.Markup
import Mathlib.Data.List.Forall2

/-!
# Codemod.Proofs.Syntax.Parser.Expression

The layout of expressions.

What stands on the left of an assignment is read as an expression first and then taken for a target
(`Node.asTarget`). That changes the kinds of some nodes and drops others, but moves none.
-/

namespace Codemod

namespace Node

/-- Every node of `b` stands where some node of `a` does. -/
def Covers (a b : Node) : Prop :=
  ∀ k ∈ b.postorder, ∃ c ∈ a.postorder, k.span = c.span

theorem Covers.refl (n : Node) : n.Covers n :=
  fun k hk => ⟨k, hk, rfl⟩

theorem exists_of_forall₂ {R : Node → Node → Prop} {ns ms : List Node} {m : Node}
    (h : List.Forall₂ R ns ms) (hm : m ∈ ms) : ∃ n ∈ ns, R n m := by
  induction h with
  | nil => cases hm
  | cons hab _ ih =>
    rcases List.mem_cons.mp hm with rfl | hm
    · exact ⟨_, List.mem_cons_self, hab⟩
    · obtain ⟨n, hn, hnm⟩ := ih hm
      exact ⟨n, List.mem_cons_of_mem _ hn, hnm⟩

theorem Row.replace {lo hi : Nat} {ns ms : List Node} (h : Row lo hi ns)
    (hms : List.Forall₂ Covers ns ms) : Row lo hi ms := by
  induction hms with
  | nil => exact h
  | @cons a b ns ms hab hms ih =>
    have hrest := ih (h.sublist (List.sublist_cons_self a ns))
    have hordered := List.pairwise_cons.mp h.ordered
    refine ⟨h.le, ?_, List.pairwise_cons.mpr ⟨?_, hrest.ordered⟩⟩
    · rw [List.forall_mem_cons]
      refine ⟨fun k hk => ?_, hrest.within⟩
      obtain ⟨c, hc, hspan⟩ := hab k hk
      rw [hspan]
      exact h.within a (List.mem_cons_self) c hc
    · intro m hm x hx y hy
      obtain ⟨c, hc, hspan⟩ := hab x hx
      obtain ⟨n, hn, hnm⟩ := exists_of_forall₂ hms hm
      obtain ⟨d, hd, hspan'⟩ := hnm y hy
      rw [hspan, hspan']
      exact hordered.1 n hn c hc d hd

/-- A node whose parts are replaced by others in the same places. -/
theorem Tidy.replace {source : Text} {a b : Node} (ha : a.Tidy source)
    (hrow : Row a.span.start a.span.stop a.children) (hspan : b.span = a.span)
    (hchildren : List.Forall₂ Covers a.children b.children)
    (htidy : ∀ c ∈ b.children, c.Tidy source) (hb : Parser.isPlain b = true) :
    a.Covers b ∧ b.Tidy source := by
  constructor
  · intro k hk
    rcases mem_postorder.mp hk with rfl | ⟨c, hc, hk⟩
    · exact ⟨a, mem_postorder_self a, hspan⟩
    · obtain ⟨d, hd, hdc⟩ := exists_of_forall₂ hchildren hc
      obtain ⟨e, he, heq⟩ := hdc k hk
      exact ⟨e, mem_postorder.mpr (.inr ⟨d, hd, he⟩), heq⟩
  · refine tidy_iff.mpr ⟨⟨by rw [hspan]; exact ha.sharp, Parser.arranged_of_isPlain hb ?_⟩, htidy⟩
    rw [hspan]
    exact hrow.replace hchildren

theorem asTargets_eq_map (ns : List Node) : asTargets ns = ns.map asTarget := by
  induction ns with
  | nil => rfl
  | cons n ns ih => rw [asTargets, ih, List.map_cons]

/-- What is taken for a target stands where it stood. -/
theorem asTarget_covers {source : Text} (n : Node) (h : n.Tidy source) :
    n.Covers n.asTarget ∧ n.asTarget.Tidy source := by
  induction n using inductionOn with
  | step n ih =>
    have hparts := (tidy_iff.mp h).2
    have hlist (ns : List Node) (hns : ∀ c ∈ ns, c ∈ n.children) :
        List.Forall₂ Covers ns (asTargets ns) ∧ ∀ c ∈ asTargets ns, c.Tidy source := by
      rw [asTargets_eq_map]
      constructor
      · rw [List.forall₂_map_right_iff, List.forall₂_same]
        exact fun c hc => (ih c (hns c hc) (hparts c (hns c hc))).1
      · intro c hc
        obtain ⟨d, hd, rfl⟩ := List.mem_map.mp hc
        exact (ih d (hns d hd) (hparts d (hns d hd))).2
    cases n with
    | object span properties =>
      obtain ⟨hcovers, htidy⟩ := hlist properties fun _ hc => hc
      exact h.replace (row_of_object h.arranged) rfl hcovers htidy rfl
    | array span elements =>
      obtain ⟨hcovers, htidy⟩ := hlist elements fun _ hc => hc
      exact h.replace h.arranged rfl hcovers htidy rfl
    | spread span argument =>
      obtain ⟨hcovers, htidy⟩ := hlist [argument] fun _ hc => hc
      exact h.replace h.arranged rfl hcovers htidy rfl
    | property span name key value =>
      obtain ⟨hcovers, htidy⟩ := hlist [value] (by simp [children])
      have hkey : List.Forall₂ Covers key key := List.forall₂_same.mpr fun c _ => .refl c
      refine h.replace h.arranged rfl (List.rel_append hkey hcovers) ?_ rfl
      intro c hc
      rcases List.mem_append.mp hc with hc | hc
      · exact hparts c (by simp [children, hc])
      · exact htidy c hc
    | wrapped span inner typeMark =>
      rw [asTarget]
      split
      · obtain ⟨hcovers, htidy⟩ := ih inner (by simp [children]) (hparts inner (by simp [children]))
        refine ⟨fun k hk => ?_, htidy⟩
        obtain ⟨c, hc, hspan⟩ := hcovers k hk
        exact ⟨c, mem_postorder.mpr (.inr ⟨inner, by simp [children], hc⟩), hspan⟩
      · exact ⟨.refl _, h⟩
    | _ => exact ⟨.refl _, h⟩

end Node

namespace Parser

variable {source : Text} {g : Grammar} {lo start : Nat} {m : Bool} {s t : State}
  {ns : List Node} {n : Node}

theorem Laid.asTarget {ms : List Node} (h : Laid source lo true s (ns ++ n :: ms)) :
    Laid source lo true s (ns ++ n.asTarget :: ms) := by
  obtain ⟨hlt, hopens, hrow, htidy⟩ := h.trail
  obtain ⟨hcovers, hn⟩ := Node.asTarget_covers n (htidy n (by simp))
  have hsame (ks : List Node) : List.Forall₂ Node.Covers ks ks :=
    List.forall₂_same.mpr fun c _ => .refl c
  refine ⟨h.placed, .inl ⟨⟨hlt, hopens, ?_, ?_⟩, h.closes⟩⟩
  · exact hrow.replace (List.rel_append (hsame ns) (.cons hcovers (hsame ms)))
  · intro c hc
    rcases List.mem_append.mp hc with hc | hc
    · exact htidy c (by simp [hc])
    · rcases List.mem_cons.mp hc with rfl | hc
      · exact hn
      · exact htidy c (by simp [hc])

/-- What is known of an operand and the node that type arguments without a call belong to. -/
def Attached (source : Text) (start : Nat) (x : Operand) (t : State) : Prop :=
  Laid source start true t [x.node] ∧
    ∀ callee types, x.instanceOf = some (callee, types) → Laid source start true t (callee :: types)

theorem attached_of_plain {x : Operand} {t : State} (hx : x.instanceOf = none)
    (h : Laid source start true t [x.node]) : Attached source start x t := by
  refine ⟨h, ?_⟩
  intro callee types hinstance
  rw [hx] at hinstance
  cases hinstance

/-- A token that begins with a slash is read as a regular expression. -/
theorem Laid.regex {x : String} (h : Laid source lo m s ns) (hl : s.token.lexeme = .symbol x)
    (hslash : (x == "/" || x == "/=") = true) :
    Laid source lo m (s.again Lexer.readRegex) ns := by
  have hx : s.token.is x = true := by simp [Token.is, hl]
  have hhere := h.placed.standing.here_eq hx
  simp only [Bool.or_eq_true, beq_iff_eq] at hslash
  rcases hslash with rfl | rfl
  · exact h.again (Lexer.readRegex_at hhere) (by simp [hhere])
  · exact h.again (Lexer.readRegex_at hhere) (by simp [hhere])

theorem Laid.angles (h : Laid source lo m s ns) (hx : s.token.is ">" = true) :
    Laid source lo m (s.again Lexer.readAngles) ns := by
  have hhere := h.placed.standing.here_eq hx
  exact h.again (Lexer.readAngles_at hhere) (by simp [hhere])

theorem seesAsyncFunction_run {Q : Bool → State → Prop}
    (k : ∀ b, (b = true → s.token.is "async" = true) → Q b s) : Yields seesAsyncFunction Q s := by
  simp only [seesAsyncFunction, yields_steps]
  exact ⟨fun hx => k _ fun _ => hx, fun _ => k false nofun⟩

theorem seesAwait_run {Q : Bool → State → Prop}
    (k : ∀ b, (b = true → s.token.is "await" = true) → Q b s) : Yields seesAwait Q s := by
  simp only [seesAwait, yields_steps]
  refine ⟨fun _ => k false nofun, fun hx => ?_⟩
  have hx : s.token.is "await" = true := by simpa using hx
  exact ⟨fun _ => k true fun _ => hx, fun _ => k _ fun _ => hx⟩

theorem isSolid_of_level {token : Token} {level : Nat} (h : level? token = some level) :
    token.lexeme.isSolid = true := by
  by_contra hsolid
  have his (x : String) : token.is x = false := by
    by_contra hx
    exact hsolid (isSolid_of_is (by simpa using hx))
  have hany (xs : List String) : token.isAny xs = false := by
    by_contra hx
    exact hsolid (isSolid_of_isAny (by simpa using hx))
  simp [level?, his, hany] at h

section

variable (hg : Grammar.Sound source g)
include hg

theorem template_sound (tagged : Bool) : Sound source (template g tagged) := by
  intro s hs
  simp only [template, yields_steps]
  split
  · simp only [yields_steps]
    refine yields_repeatFrom
      (fun parts t => Laid source s.token.span.start false t parts.reverse) ?_ hs.begin
    intro parts t ht
    simp only [yields_steps]
    split
    · rename_i text hl
      have hnext := ht.next (isSolid_of_eq hl rfl)
      simp only [yields_steps, Sum.elim_inr]
      exact ⟨fun _ => hnext.plain rfl rfl rfl, fun _ => hnext.plain rfl rfl rfl⟩
    · rename_i text hl
      have hsubstitution (u : State) (hu : Laid source s.token.span.start true u parts.reverse) :
          Yields (innerExpression g) (fun e v => v.token.is rbrace = true →
            Laid source s.token.span.start false (v.again Lexer.readTemplateRest)
              (e :: parts).reverse) u := by
        refine (innerExpression_sound hg).push hu fun e v hv hx => ?_
        have := (hv.templateRest hx).weaken (m := false)
        simpa using this
      have hnext := ht.next (isSolid_of_eq hl rfl)
      simp only [yields_steps]
      refine ⟨fun _ => (hsubstitution (t.noting t.token.span.start).next hnext).mono
        fun e v hv => ?_, fun _ => (hsubstitution t.next hnext).mono fun e v hv => ?_⟩
      · simp only [yields_steps]
        exact ⟨fun _ => trivial, fun hx => hv (by simpa using hx)⟩
      · simp only [yields_steps]
        exact ⟨fun _ => trivial, fun hx => hv (by simpa using hx)⟩
    · simp only [yields_steps]
  · simp only [yields_steps]

theorem spreadOrInner_sound : Sound source (spreadOrInner g) := by
  intro s hs
  simp only [spreadOrInner, yields_steps, yields_eat]
  refine ⟨fun hx => ?_, fun _ => inner_sound hg s hs⟩
  refine (inner_sound hg).push (hs.begin.eat hx) fun e t ht => ?_
  simp only [yields_steps]
  exact ht.plain rfl rfl rfl

theorem arguments_emits : Emits source true (arguments g) fun ns => ns := by
  intro s lo m ns h
  simp only [arguments, yields_steps]
  intro hx
  refine emits_separated (spreadOrInner_sound hg) (by decide) (h.eat hx) fun args t ht => ?_
  simp only [yields_steps]
  exact fun hx => ht.eat hx

theorem arrayLiteral_sound : Sound source (arrayLiteral g) := by
  intro s hs
  simp only [arrayLiteral, yields_steps]
  intro hx
  refine yields_separated (f := fun n => [n]) (by decide) ?_ (hs.begin.eat hx)
    fun elements t ht => ?_
  · intro t ns ht
    simp only [yields_steps]
    refine ⟨fun hcomma => .inr ⟨hcomma, ht.hole hcomma rfl rfl rfl⟩, fun _ => ?_⟩
    exact (spreadOrInner_sound hg).push ht fun _ _ hu => .inl hu
  · simp only [yields_steps]
    exact fun hx => (ht.eat hx).plain rfl (by simp [Node.children]) rfl

omit hg in
theorem steady_mayFollowTypeArguments : Steady mayFollowTypeArguments := by
  intro s
  simp only [mayFollowTypeArguments, yields_steps]
  split
  · simp only [yields_steps]
  · simp only [yields_steps]
    refine ⟨fun _ => trivial, fun _ => ⟨fun _ => trivial, fun _ => ⟨fun _ => trivial, fun _ => ?_⟩⟩⟩
    split <;> simp only [yields_steps]

/-- Type arguments that may turn out to be something else. -/
theorem expressionTypeArguments_run {Q : Option (List Node) → State → Prop}
    (h : Laid source lo true s ns) (hx : s.token.isAny ["<", "<<"] = true) (hnone : Q none s)
    (k : ∀ types t, Laid source lo true t (ns ++ types) → Q (some types) t) :
    Yields (expressionTypeArguments g) Q s := by
  refine yields_attempt hnone ?_
  simp only [yields_steps]
  refine typeArguments_run hg h hx fun types t ht => ?_
  simp only [yields_steps]
  refine steady_mayFollowTypeArguments.run fun b => ?_
  simp only [yields_steps]
  exact ⟨fun _ => trivial, fun _ => k types t ht⟩

theorem attach_run (calls : Bool) (h : Done source start n s) :
    Yields (attach g calls start n) (fun x t => Laid source start true t [x.node]) s := by
  refine yields_repeatFrom (Attached source start) ?_ (attached_of_plain rfl h)
  intro x t ⟨hx, hinstance⟩
  have hcallee : Laid source start true t
      ((x.instanceOf.getD (x.node, [])).1 :: (x.instanceOf.getD (x.node, [])).2) := by
    cases hi : x.instanceOf with
    | none => exact hx
    | some callee => exact hinstance _ _ hi
  simp -zeta only [yields_steps]
  extract_lets call access element tagged called
  have hcall (optional : Bool) (types : List Node) (u : State)
      (hu : Laid source start true u ((x.instanceOf.getD (x.node, [])).1 ::
        ((x.instanceOf.getD (x.node, [])).2 ++ types))) :
      Yields (call optional types) (fun r u => Sum.elim (fun z => Attached source start z u)
        (fun a => Laid source start true u [a.node]) r) u := by
    simp only [call, yields_steps]
    refine (arguments_emits hg).run hu fun args v hv => ?_
    simp only [yields_steps]
    exact attached_of_plain rfl (hv.plain rfl (by simp [Node.children]) rfl)
  have haccess (optional : Bool) (u : State) (hu : Laid source start true u [x.node]) :
      Yields (access optional) (fun r u => Sum.elim (fun z => Attached source start z u)
        (fun a => Laid source start true u [a.node]) r) u := by
    simp only [access, yields_steps]
    split
    · rename_i name escaped hl
      simp only [yields_steps]
      exact attached_of_plain rfl ((hu.next (isSolid_of_eq hl rfl)).plain rfl rfl rfl)
    · rename_i name hl
      simp only [yields_steps]
      exact attached_of_plain rfl ((hu.next (isSolid_of_eq hl rfl)).plain rfl rfl rfl)
    · simp only [yields_steps]
  have helement (optional : Bool) (u : State) (hu : Laid source start true u [x.node]) :
      Yields (element optional) (fun r u => Sum.elim (fun z => Attached source start z u)
        (fun a => Laid source start true u [a.node]) r) u := by
    simp only [element, yields_steps]
    intro hopen
    refine (innerExpression_sound hg).push (hu.eat hopen) fun e v hv => ?_
    simp only [yields_steps]
    exact fun hclose => attached_of_plain rfl ((hv.eat hclose).plain rfl rfl rfl)
  have htagged (u : State) (hu : Laid source start true u [x.node]) :
      Yields (tagged ()) (fun r u => Sum.elim (fun z => Attached source start z u)
        (fun a => Laid source start true u [a.node]) r) u := by
    simp only [tagged, yields_steps]
    refine (template_sound hg true).push hu fun quasi v hv => ?_
    simp only [yields_steps]
    exact attached_of_plain rfl (hv.plain rfl rfl rfl)
  simp only [called]
  clear_value call access element tagged called
  split
  · simp only [yields_steps]
    exact ⟨fun _ => htagged _ hx, fun _ => htagged t hx⟩
  · simp only [yields_steps]
    refine ⟨fun hdot => haccess false _ (hx.eat hdot), fun _ => ⟨fun _ => helement false t hx,
      fun _ => ⟨fun _ => hcall false [] t (by simpa using hcallee), fun _ => ⟨fun hbang => ?_,
        fun _ => ⟨fun hoptional => ?_, fun _ => ⟨fun hangle => ?_, fun _ => hx⟩⟩⟩⟩⟩⟩
    · simp only [Bool.and_eq_true] at hbang
      exact attached_of_plain rfl ((hx.eat hbang.1.1).plain rfl rfl rfl)
    · refine ⟨fun _ => ⟨fun _ => helement true _ (hx.eat hoptional),
        fun _ => haccess true _ (hx.eat hoptional)⟩, fun _ => ⟨fun _ => ?_, fun _ => hx⟩⟩
      simp only [seesTypeArguments, yields_steps]
      have hnext := hcallee.eat hoptional
      refine ⟨fun hangle => ?_, fun _ => hcall true [] _ (by simpa using hnext)⟩
      rw [Bool.and_eq_true] at hangle
      refine expressionTypeArguments_run hg hnext hangle.2 ?_ fun types u hu => ?_
      · simp only [yields_steps]
        exact hcall true [] _ (by simpa using hnext)
      · simp only [yields_steps]
        exact hcall true types u hu
    · rw [Bool.and_eq_true] at hangle
      refine expressionTypeArguments_run hg hx hangle.1 ?_ fun types u hu => ?_
      · simp only [yields_steps]
        exact hx
      · simp only [yields_steps]
        refine ⟨hu.plain rfl rfl rfl, fun callee known heq => ?_⟩
        cases heq
        exact hu

theorem newExpression_sound : Sound source (newExpression g) := by
  intro s hs
  simp only [newExpression, yields_steps, yields_eat]
  intro hnew
  have hstart := hs.begin.eat hnew
  refine ⟨fun hdot => ⟨fun _ => trivial, fun htarget => ?_⟩, fun _ => ?_⟩
  · exact ((hstart.eat hdot).eat (x := "target") (by simpa using htarget)).plain rfl rfl rfl
  refine hg.callee.push hstart fun callee t ht => ?_
  simp only [yields_steps]
  refine ⟨fun _ => ?_, fun _ => ht.plain rfl rfl rfl⟩
  refine (arguments_emits hg).run ht fun args u hu => ?_
  simp only [yields_steps]
  exact hu.plain rfl rfl rfl

theorem importArguments_emits (start : Nat) :
    Emits source true (importArguments g start) fun ns => ns := by
  intro s lo m ns h
  simp -zeta only [importArguments, yields_steps]
  intro hopen
  extract_lets rest
  simp only [yields_steps]
  refine ⟨fun _ => trivial, fun _ => ?_⟩
  simp -zeta only [rest, yields_steps]
  refine (inner_sound hg).push (h.eat hopen) fun from_ t ht => ?_
  simp -zeta only [yields_steps]
  extract_lets finish
  have hfinish (options : List Node) (u : State)
      (hu : Laid source lo true u (ns ++ [from_] ++ options)) :
      Yields (finish options) (fun parts v => Laid source lo (true || m) v (ns ++ parts)) u := by
    simp only [finish, yields_steps]
    refine (passes_eat ",").run hu fun _ u hu => ?_
    simp only [yields_steps]
    refine ⟨fun _ => trivial, fun hx => ?_⟩
    have := hu.eat (x := ")") (by simpa using hx)
    simpa using this
  clear_value finish
  simp only [yields_steps, yields_eat]
  refine ⟨fun hx => ⟨fun _ => ?_, fun _ => hfinish [] _ (by simpa using ht.eat hx)⟩,
    fun _ => ⟨nofun, fun _ => hfinish [] t (by simpa using ht)⟩⟩
  refine (inner_sound hg).push (ht.eat hx) fun options u hu => ?_
  simp only [yields_steps]
  exact hfinish [options] u hu

theorem importExpression_sound : Sound source (importExpression g) := by
  intro s hs
  simp -zeta only [importExpression, yields_steps]
  intro himport
  have hstart := hs.begin.eat himport
  extract_lets finish
  have hfinish (u : State) (hu : Laid source s.token.span.start true u []) :
      Yields (finish ()) (Done source s.token.span.start) u := by
    simp only [finish, yields_steps]
    refine (importArguments_emits hg _).run hu fun args v hv => ?_
    simp only [yields_steps]
    exact hv.plain rfl rfl rfl
  clear_value finish
  simp only [yields_steps, yields_eat]
  refine ⟨fun hdot => ⟨fun hmeta => ?_, fun _ => ⟨fun _ => trivial, fun hx => ?_⟩⟩,
    fun _ => hfinish _ hstart⟩
  · exact ((hstart.eat hdot).eat hmeta).plain rfl rfl rfl
  · have hphase : s.next.next.token.isAny ["source", "defer"] = true := by simpa using hx
    exact hfinish _ ((hstart.eat hdot).eatAny hphase)

theorem parenthesizedList_sound : Sound source (parenthesizedList g) := by
  intro s hs
  simp only [parenthesizedList, yields_steps]
  refine (hg.assignment true).push hs.begin fun first t ht => ?_
  simp only [yields_steps]
  refine ⟨fun _ => ht, fun _ => ?_⟩
  refine (emits_many (f := fun n => [n]) (fun u => u.token.is "," = true) (fun u => ?_)
    (fun u lo m ns hcomma hu => ?_)).run ht fun rest u hu => ?_
  · simp only [yields_steps]
    exact ⟨trivial, id⟩
  · simp only [yields_steps]
    refine ⟨fun _ => trivial, fun _ => ?_⟩
    exact (hg.assignment true).push (hu.eat hcomma) fun _ _ hv => hv
  · simp only [yields_steps]
    exact hu.plain rfl (by simp [Node.children]) rfl

/-- A class with the decorators that were read before it. -/
theorem classFrom_plain {more : List Node} (h : Laid source start m s more) :
    Yields (classFrom g start more) (Done source start) s :=
  (classFrom_run hg .none h).mono fun _ _ ht => ht.1

theorem primary_sound : Sound source (primary g) := by
  intro s hs
  simp only [primary, yields_steps]
  split
  · rename_i value hl
    simp only [yields_steps]
    exact hs.leaf (isSolid_of_eq hl rfl) rfl rfl rfl
  · rename_i hl
    simp only [yields_steps]
    exact hs.leaf (isSolid_of_eq hl rfl) rfl rfl rfl
  · exact template_sound hg false s hs
  · rename_i x hl
    have hfirst := hs.begin.next (isSolid_of_eq hl rfl)
    simp only [yields_steps]
    refine ⟨fun _ => ⟨fun _ => trivial, fun _ => ?_⟩, fun _ => ⟨fun _ => arrayLiteral_sound hg s hs,
      fun _ => ⟨fun _ => objectLiteral_sound hg s hs, fun _ => ⟨fun hslash => ?_,
        fun _ => ⟨fun _ => ?_, fun _ => trivial⟩⟩⟩⟩⟩
    · refine ((parenthesizedList_sound hg).within _).push hfirst fun e t ht => ?_
      simp only [yields_steps]
      exact fun hx => (ht.eat hx).plain rfl rfl rfl
    · refine ⟨fun _ => trivial, fun hregex => ?_⟩
      have hread := hs.begin.regex hl hslash
      have hnext := hread.next (isSolid_of_eq (by simpa using hregex) rfl)
      exact ⟨fun _ => hnext.plain rfl rfl rfl, fun _ => hnext.plain rfl rfl rfl⟩
    · refine (decorators_emits hg).run hs.begin fun marks t ht => ?_
      simp only [yields_steps]
      exact classFrom_plain hg ht
  · rename_i name escaped hl
    have hsolid := isSolid_of_eq hl rfl
    simp only [yields_steps]
    refine ⟨fun _ => hs.leaf hsolid rfl rfl rfl, fun _ => ⟨fun _ => hs.leaf hsolid rfl rfl rfl,
      fun _ => ⟨fun _ => ⟨fun _ => hs.leaf hsolid rfl rfl rfl, fun _ => hs.leaf hsolid rfl rfl rfl⟩,
        fun _ => ⟨fun _ => functionFrom_run hg _ _ hs.begin,
          fun _ => ⟨fun _ => classFrom_plain hg hs.begin, fun _ => ⟨fun _ => newExpression_sound hg s hs,
            fun _ => ⟨fun _ => importExpression_sound hg s hs, fun _ => ?_⟩⟩⟩⟩⟩⟩⟩
    refine seesAsyncFunction_run fun b hasync => ?_
    simp only [yields_steps]
    exact ⟨fun hb => functionFrom_run hg _ _ (hs.begin.eat (hasync hb)),
      fun _ => referenceName_sound s hs⟩
  · simp only [yields_steps]

theorem callee_sound : Sound source (callee g) := by
  intro s hs
  simp only [callee, yields_steps]
  refine (primary_sound hg).push hs.begin fun first t ht => ?_
  simp only [yields_steps]
  refine (attach_run hg false ht).mono fun x u hu => ?_
  simp only [yields_steps]
  exact ⟨fun _ => trivial, fun _ => hu⟩

theorem operand_sound : Sound source (operand g) := by
  intro s hs
  simp only [operand, yields_steps]
  refine (primary_sound hg).push hs.begin fun first t ht => ?_
  simp only [yields_steps]
  refine (attach_run hg true ht).mono fun x u hu => ?_
  simp only [yields_steps]
  exact ⟨fun _ => hu.plain rfl rfl rfl, fun _ => hu⟩

theorem update_sound : Sound source (update g) := by
  intro s hs
  simp only [update, yields_steps]
  refine ⟨fun hx => ?_, fun _ => ?_⟩
  · refine hg.unary.push (hs.begin.eatAny hx) fun e t ht => ?_
    simp only [yields_steps]
    split
    · simp only [yields_steps]
    · simp only [yields_steps]
      have hoperand : Laid source s.token.span.start true t ([] ++ [e]) := ht
      exact hoperand.asTarget.plain rfl rfl rfl
  · refine hg.operand.push hs.begin fun e t ht => ?_
    simp only [yields_steps]
    refine ⟨fun hx => ?_, fun _ => ht⟩
    rw [Bool.and_eq_true] at hx
    split
    · simp only [yields_steps]
    · simp only [yields_steps]
      have hoperand : Laid source s.token.span.start true t ([] ++ [e]) := ht
      exact (hoperand.asTarget.eatAny hx.1).plain rfl rfl rfl

theorem unary_sound : Sound source (unary g) := by
  intro s hs
  simp only [unary, yields_steps]
  refine ⟨fun hx => ?_, fun _ => ?_⟩
  · refine hg.unary.push (hs.begin.eatAny hx) fun e t ht => ?_
    simp only [yields_steps]
    exact ht.plain rfl rfl rfl
  refine seesAwait_run fun b hawait => ?_
  simp only [yields_steps]
  refine ⟨fun hb => ?_, fun _ => ⟨fun hx => ?_, fun _ => ⟨fun hx hopen => ?_, fun _ => ?_⟩⟩⟩
  · have hnext := hs.begin.eat (hawait hb)
    have hnoted : Laid source s.token.span.start true (s.noting s.token.span.start).next [] := hnext
    refine ⟨fun _ => hg.unary.push hnoted fun e u hu => ?_,
      fun _ => hg.unary.push hnext fun e u hu => ?_⟩
    · simp only [yields_steps]
      exact hu.plain rfl rfl rfl
    · simp only [yields_steps]
      exact hu.plain rfl rfl rfl
  · rw [Bool.and_eq_true] at hx
    exact (hg.markup _ false _ (hs.begin.eat hx.1)).mono fun _ _ ht => ht.laid
  · rw [Bool.and_eq_true] at hx
    refine (anyType_sound hg).push ((hs.begin.oneAngle hx.1).eat hopen) fun type t ht => ?_
    simp only [yields_steps]
    intro hclose
    refine hg.unary.push (ht.eat hclose) fun e u hu => ?_
    simp only [yields_steps]
    exact hu.plain rfl rfl rfl
  · exact update_sound hg s hs

theorem binary_sound (low : Nat) : Sound source (binary g low) := by
  intro s hs
  simp -zeta only [binary, yields_steps]
  extract_lets rest
  have hrest (prefixed : Bool) :
      Yields (rest prefixed) (Done source s.token.span.start) s := by
    simp -zeta only [rest, yields_steps]
    extract_lets joined
    have hjoined (first : Node) (t : State) (ht : Done source s.token.span.start first t) :
        Yields (joined first) (Done source s.token.span.start) t := by
      simp -zeta only [joined]
      refine yields_attach (fun left u hu => ?_) ht
      simp -zeta only [yields_steps]
      extract_lets typed step
      have htyped (type : Node) (v : State)
          (hv : Laid source s.token.span.start true v [left, type]) :
          Yields (typed type) (fun r w => Sum.elim
            (fun n => Done source s.token.span.start n w)
            (fun n => Done source s.token.span.start n w) r) v := by
        simp only [typed, yields_steps]
        exact ⟨fun _ => hv.plain rfl rfl rfl, fun _ => hv.plain rfl rfl rfl⟩
      have hstep (v : State) (hv : Done source s.token.span.start left v) :
          Yields (step ()) (fun r w => Sum.elim
            (fun n => Done source s.token.span.start n w)
            (fun n => Done source s.token.span.start n w) r) v := by
        simp -zeta only [step, yields_steps]
        split
        · simp only [yields_steps]
          exact hv
        · rename_i level hlevel
          have hnext := hv.next (isSolid_of_level hlevel)
          clear_value typed
          extract_lets tighter operated
          have hoperated (w : State) (hw : Done source s.token.span.start left w)
              (hsolid : w.token.lexeme.isSolid = true) :
              Yields (operated ()) (fun r w => Sum.elim
                (fun n => Done source s.token.span.start n w)
                (fun n => Done source s.token.span.start n w) r) w := by
            simp only [operated, yields_steps]
            refine (hg.binary level).push (hw.next hsolid) fun right x hx => ?_
            have hnode := hx.plain (n := .other ⟨s.token.span.start, x.lastStop⟩ [left, right])
              rfl rfl rfl
            simp only [yields_steps]
            exact ⟨fun _ => ⟨fun _ => ⟨fun _ => hnode, fun _ => hnode⟩, fun _ => hnode⟩,
              fun _ => ⟨fun _ => ⟨fun _ => hnode, fun _ => hnode⟩, fun _ => hnode⟩⟩
          clear_value operated
          simp only [yields_steps]
          refine ⟨fun _ => hv, fun _ => ⟨fun _ => hv, fun _ => ⟨fun _ => ⟨fun _ => hv,
            fun _ => ⟨fun hconst => ?_, fun _ => ?_⟩⟩, fun _ => ⟨fun _ => ?_, fun _ => ?_⟩⟩⟩⟩
          · have hleaf := hnext.placed.leaf (n := .other v.next.token.span []) (isSolid_of_is hconst)
              rfl rfl rfl
            exact htyped _ _ (hnext.append hleaf)
          · refine hg.type.push hnext fun type x hx => ?_
            simp only [yields_steps]
            exact htyped type x hx
          · exact hoperated (v.noting s.token.span.start) hv (isSolid_of_level hlevel)
          · exact hoperated v hv (isSolid_of_level hlevel)
      clear_value step
      simp only [yields_steps]
      exact ⟨fun hx => hstep _ (hu.angles hx), fun _ => hstep u hu⟩
    clear_value joined
    split
    · rename_i name hl
      simp only [yields_steps]
      exact ⟨fun _ => trivial, fun _ => hjoined _ _ (hs.leaf (isSolid_of_eq hl rfl) rfl rfl rfl)⟩
    · simp only [yields_steps]
      refine hg.unary.push hs.begin fun first t ht => ?_
      simp only [yields_steps]
      exact hjoined first t ht
  clear_value rest
  simp only [yields_steps]
  exact ⟨fun _ => hrest true, fun _ => seesAwait_run fun b _ => hrest b⟩

omit hg in
theorem steady_arrowLikelihood {Q : Likelihood → State → Prop} (k : ∀ l, Q l s) :
    Yields arrowLikelihood Q s := by
  intro l t heq
  rw [arrowLikelihood] at heq
  dsimp only at heq
  split at heq
  · cases heq
    exact k _
  · cases heq
    exact k _

theorem arrowHead_emits (isAsync : Bool) :
    Emits source true (arrowHead g isAsync) fun head => head.1 := by
  intro s lo m ns h
  simp only [arrowHead, yields_steps]
  refine (typeParameters_emits hg).run h fun generics t ht => ?_
  simp only [yields_steps]
  refine ((parameters_emits hg).within _).run ht fun ps u hu => ?_
  simp only [yields_steps]
  refine (typedResult_emits hg).run hu fun result v hv => ?_
  simp only [yields_steps]
  refine ⟨fun _ => trivial, fun _ hx => ?_⟩
  simpa using hv.eat hx

theorem arrowBody_emits (isAsync arrowType : Bool) :
    Emits source true (arrowBody g isAsync arrowType) fun ns => ns := by
  refine Emits.within ?_ _
  intro s lo m ns h
  simp only [yields_steps]
  refine ⟨fun _ => ((block_emits hg).within _).run h fun _ _ ht => ht, fun _ => ?_⟩
  refine (hg.assignment arrowType).push h fun e t ht => ?_
  simp only [yields_steps]
  exact ht

theorem arrowInParentheses_run {Q : Option Node → State → Prop} (arrowType : Bool)
    (hs : Placed source s) (hnone : Q none s)
    (k : ∀ n t, Done source s.token.span.start n t → Q (some n) t) :
    Yields (arrowInParentheses g arrowType) Q s := by
  simp -zeta only [arrowInParentheses, yields_steps]
  refine ⟨fun _ => hnone, fun _ => ?_⟩
  extract_lets whole
  have hwhole (body : Bool) : Emits source true (whole body) fun r => r.1 := by
    intro t lo m ns ht
    simp only [whole, yields_steps]
    refine (passes_eat "async").run ht fun isAsync u hu => ?_
    simp only [yields_steps]
    refine (arrowHead_emits hg isAsync).run hu fun head v hv => ?_
    obtain ⟨head, typed⟩ := head
    simp only [yields_steps]
    refine ⟨fun _ => ?_, fun _ => hv⟩
    refine (arrowBody_emits hg isAsync arrowType).run hv fun rest w hw => ?_
    simp only [yields_steps]
    simpa using hw
  clear_value whole
  simp only [yields_steps]
  refine steady_arrowLikelihood fun likelihood => ?_
  simp only [yields_steps]
  cases likelihood with
  | impossible =>
    simp only [yields_steps]
    exact hnone
  | certain =>
    simp only [yields_steps]
    refine (hwhole true).run hs.begin fun r t ht => ?_
    obtain ⟨parts, typed⟩ := r
    simp only [yields_steps]
    exact k _ t (ht.plain rfl rfl rfl)
  | possible =>
    simp only [yields_steps]
    refine yields_attempt ?_ ?_
    · simp only [yields_steps]
      exact hnone
    · refine (hwhole false).run hs.begin fun _ _ _ => ?_
      simp only [yields_steps]
      refine (hwhole true).run hs.begin fun r t ht => ?_
      obtain ⟨parts, typed⟩ := r
      simp only [yields_steps]
      exact ⟨fun _ => hnone, fun _ => k _ t (ht.plain rfl rfl rfl)⟩

omit hg in
theorem seesAsyncArrow_run {Q : Bool → State → Prop}
    (k : ∀ b, (b = true → s.token.is "async" = true) → Q b s) : Yields seesAsyncArrow Q s := by
  refine ahead_run ?_ k
  simp only [yields_steps, yields_eat]
  exact ⟨fun hx => by simp [hx], fun _ => by simp⟩

omit hg in
/-- What was read is taken for a target. -/
theorem target_run {simple : Bool} {ms : List Node} {Q : Node → State → Prop}
    (h : Laid source lo true s (ns ++ n :: ms))
    (k : ∀ t, Laid source lo true t (ns ++ n.asTarget :: ms) → t.token = s.token → Q n.asTarget t) :
    Yields (target n simple) Q s := by
  simp only [target]
  split
  · simp only [yields_steps]
  · simp only [yields_steps]
    exact k _ h.asTarget rfl

theorem conditional_run (arrowType : Bool) (h : Done source start n s) :
    Yields (conditional g start n arrowType) (Done source start) s := by
  simp only [conditional, yields_steps, yields_eat]
  refine ⟨fun hx => ?_, fun _ => h⟩
  refine ((hg.assignment false).within _).push (h.eat hx) fun yes t ht => ?_
  simp only [yields_steps]
  intro hcolon
  refine (hg.assignment arrowType).push (ht.eat hcolon) fun no u hu => ?_
  simp only [yields_steps]
  exact hu.plain rfl rfl rfl

theorem yieldExpression_sound : Sound source (yieldExpression g) := by
  intro s hs
  simp only [yieldExpression, yields_steps, yields_eat]
  intro hyield
  have hstart := hs.begin.eat hyield
  refine ⟨fun _ => hstart.plain rfl rfl rfl, fun _ => ⟨fun hx => ?_, fun _ =>
    ⟨fun _ => hstart.plain rfl rfl rfl, fun _ => ?_⟩⟩⟩
  · refine (hg.assignment true).push (hstart.eat hx) fun e t ht => ?_
    simp only [yields_steps]
    exact ht.plain rfl rfl rfl
  · refine (hg.assignment true).push hstart fun e t ht => ?_
    simp only [yields_steps]
    exact ht.plain rfl rfl rfl

theorem assignment_sound (arrowType : Bool) : Sound source (assignment g arrowType) := by
  intro s hs
  simp only [assignment, yields_steps]
  refine ⟨fun _ => yieldExpression_sound hg s hs, fun _ => ?_⟩
  refine arrowInParentheses_run hg arrowType hs ?_ fun arrow t ht => ?_
  · simp only [yields_steps]
    refine seesAsyncArrow_run fun b hasync => ?_
    simp only [yields_steps]
    refine ⟨fun hb => ?_, fun _ => ?_⟩
    · refine bindingName_passes.run (hs.begin.eat (hasync hb)) fun _ t ht => ?_
      simp only [yields_steps]
      intro hx
      refine (arrowBody_emits hg true arrowType).run (ht.eat hx) fun parts u hu => ?_
      simp only [yields_steps]
      exact hu.plain rfl rfl rfl
    · refine (hg.binary 0).push hs.begin fun left t ht => ?_
      simp only [yields_steps]
      refine ⟨fun hx => ⟨fun _ => trivial, fun _ => ?_⟩, fun _ => ⟨fun hx => ?_, fun _ => ?_⟩⟩
      · rw [Bool.and_eq_true] at hx
        -- the name is the parameter
        have hparameter := (ht.sublist (List.nil_sublist _)).eat hx.2
        refine (arrowBody_emits hg false arrowType).run hparameter fun parts u hu => ?_
        simp only [yields_steps]
        exact hu.plain rfl rfl rfl
      · have hleft : Laid source s.token.span.start true t ([] ++ [left]) := ht
        refine target_run hleft fun u hu htoken => ?_
        simp only [yields_steps]
        rw [← htoken] at hx
        refine (hg.assignment arrowType).push (hu.eatAny hx) fun right v hv => ?_
        simp only [yields_steps]
        exact hv.plain rfl rfl rfl
      · exact conditional_run hg arrowType ht
  · simp only [yields_steps]
    exact ht

theorem expression_sound : Sound source (expression g) := by
  intro s hs
  simp only [expression, yields_steps]
  refine (hg.assignment true).push hs.begin fun first t ht => ?_
  simp only [yields_steps]
  refine ⟨fun _ => ht, fun _ => ?_⟩
  refine (emits_commas (hg.assignment true).emits).run ht fun rest u hu => ?_
  simp only [yields_steps]
  exact hu.plain rfl (by simp [Node.children]) rfl

end

end Parser

end Codemod
