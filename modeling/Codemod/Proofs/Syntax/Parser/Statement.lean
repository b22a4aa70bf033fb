import Codemod.Syntax.Parser.Statement
import Codemod.Proofs.Syntax.Parser.Transfer

/-!
# Codemod.Proofs.Syntax.Parser.Statement

The layout of statements.
-/

namespace Codemod

namespace Parser

variable {source : Text} {g : Grammar} {lo start : Nat} {m : Bool} {s t : State}
  {ns marks : List Node} {n : Node}

section

variable (hg : Grammar.Sound source g)
include hg

theorem parenthesized_emits : Emits source true (parenthesized g) fun n => [n] := by
  intro s lo m ns h
  simp only [parenthesized, yields_steps]
  intro hopen
  refine (innerExpression_sound hg).push (h.eat hopen) fun e t ht => ?_
  simp only [yields_steps]
  exact fun hclose => ht.eat hclose

theorem expressionStatement_sound : Sound source (expressionStatement g) := by
  intro s hs
  simp only [expressionStatement, yields_steps]
  refine hg.expression.push hs.begin fun e t ht => ?_
  simp only [yields_steps]
  have hplain : Yields terminator (fun _ u =>
      Done source s.token.span.start (.statement ⟨s.token.span.start, u.lastStop⟩ e) u) t :=
    passes_terminator.run ht fun _ u hu => hu.plain rfl rfl rfl
  split
  · simp only [yields_steps, yields_eat]
    refine ⟨fun hx => ?_, fun _ => hplain.mono fun _ u hu => ?_⟩
    · have hlabel := (ht.sublist (List.nil_sublist _)).eat hx
      refine (statement_sound hg true).push hlabel fun body u hu => ?_
      simp only [yields_steps]
      exact hu.plain rfl rfl rfl
    · simp only [yields_steps]
      exact hu
  · simp only [yields_steps]
    refine hplain.mono fun _ u hu => ?_
    simp only [yields_steps]
    exact hu

omit hg in
/-- Everything that was read is taken for targets. -/
theorem targets_run (init : List Node) (h : Laid source lo true s (ns ++ init)) :
    Yields (init.mapM fun e => target e false)
      (fun left t => Laid source lo true t (ns ++ left)) s := by
  induction init generalizing ns s with
  | nil =>
    simp only [List.mapM_nil, yields_steps]
    exact h
  | cons e init ih =>
    simp only [List.mapM_cons, yields_steps]
    refine target_run h fun t ht _ => ?_
    simp only [yields_steps]
    have hrest : Laid source lo true t (ns ++ [e.asTarget] ++ init) := by simpa using ht
    refine (ih hrest).mono fun left u hu => ?_
    simp only [yields_steps]
    simpa using hu

omit hg in
theorem checkInitialized_forM (constant : Bool) (init : List Node) :
    Passes source false (init.forM (checkInitialized constant)) := by
  intro s lo m ns h
  induction init generalizing s with
  | nil =>
    rw [List.forM]
    simp only [yields_steps]
    exact h
  | cons n init ih =>
    rw [List.forM]
    simp only [yields_steps]
    refine (checkInitialized_passes constant n).run h fun _ t ht => ?_
    exact ih t ht

theorem loopRest_run {awaits declares constant asyncOf : Bool} {first : Token} {init : List Node}
    (h : Laid source lo true s (ns ++ init)) :
    Yields (loopRest g start awaits declares constant asyncOf first init)
      (fun parts t => Laid source lo true t (ns ++ parts)) s := by
  simp -zeta only [loopRest]
  extract_lets targets overValues overKeys stepped counted
  have htargets (t : State) (ht : Laid source lo true t (ns ++ init)) :
      Yields targets (fun left u => Laid source lo true u (ns ++ left)) t := by
    simp only [targets, yields_steps]
    exact ⟨fun _ => ht, fun _ => targets_run init ht⟩
  have hoverValues (t : State) (ht : Laid source lo true t (ns ++ init)) :
      Yields (overValues ()) (fun parts u => Laid source lo true u (ns ++ parts)) t := by
    simp only [overValues, yields_steps]
    refine (htargets t ht).mono fun left u hu => ?_
    simp only [yields_steps]
    refine (inner_sound hg).push hu fun right v hv => ?_
    simp only [yields_steps]
    simpa using hv
  have hoverKeys (t : State) (ht : Laid source lo true t (ns ++ init)) :
      Yields (overKeys ()) (fun parts u => Laid source lo true u (ns ++ parts)) t := by
    simp only [overKeys, yields_steps]
    refine (htargets t ht).mono fun left u hu => ?_
    simp only [yields_steps]
    refine (innerExpression_sound hg).push hu fun right v hv => ?_
    simp only [yields_steps]
    simpa using hv
  have hstepped (test : List Node) (t : State)
      (ht : Laid source lo true t (ns ++ (init ++ test))) :
      Yields (stepped test) (fun parts u => Laid source lo true u (ns ++ parts)) t := by
    simp only [stepped, yields_steps]
    intro hx
    refine ⟨fun _ => by simpa using ht.eat hx, fun _ => ?_⟩
    refine (innerExpression_sound hg).push (ht.eat hx) fun step u hu => ?_
    simp only [yields_steps]
    simpa using hu
  have hcounted (t : State) (ht : Laid source lo true t (ns ++ init)) :
      Yields (counted ()) (fun parts u => Laid source lo true u (ns ++ parts)) t := by
    simp only [counted, yields_steps]
    clear_value stepped
    intro hx
    refine (checkInitialized_forM constant init).run (ht.eat hx) fun _ u hu => ?_
    simp only [yields_steps]
    refine ⟨fun _ => hstepped [] u (by simpa using hu), fun _ => ?_⟩
    refine (innerExpression_sound hg).push hu fun test v hv => ?_
    simp only [yields_steps]
    exact hstepped [test] v (by simpa using hv)
  clear_value targets overValues overKeys stepped counted
  simp only [yields_steps, yields_eat]
  refine ⟨fun hx => ?_, fun _ => ⟨fun hx => ?_, fun _ => ?_⟩⟩
  · have hnext := h.eat hx
    exact ⟨fun _ => hoverValues _ hnext, fun _ => hoverValues _ hnext⟩
  · have hnext := h.eat hx
    exact ⟨fun _ => hoverKeys _ hnext, fun _ => hoverKeys _ hnext⟩
  · exact ⟨fun _ => hcounted _ h, fun _ => hcounted s h⟩

theorem loopHead_emits (start : Nat) : Emits source true (loopHead g start) fun ns => ns := by
  intro s lo m ns h
  simp -zeta only [loopHead, yields_steps]
  extract_lets head awaited
  have hhead (t : State) (ht : Laid source lo m t ns) :
      Yields (head ()) (fun parts u => Laid source lo (true || m) u (ns ++ parts)) t := by
    simp -zeta only [head, yields_steps]
    intro hopen
    replace ht := ht.eat hopen
    generalize t.next = t at ht ⊢
    extract_lets parts
    have hparts (asyncOf : Bool) :
        Yields (parts asyncOf) (fun parts u => Laid source lo (true || m) u (ns ++ parts)) t := by
      simp -zeta only [parts, yields_steps]
      extract_lets first
      have hfirst (declares : Bool) (hdeclares : declares = true → t.token.lexeme.isSolid = true) :
          Yields (first declares) (fun parts u => Laid source lo (true || m) u (ns ++ parts)) t := by
        simp only [first, yields_steps]
        refine ⟨fun _ => loopRest_run hg (by simpa using ht), fun _ => ?_⟩
        rw [yields_within]
        simp only [yields_steps]
        generalize hu : t.inScope _ = u
        have hlaid : Laid source lo true u ns := by
          rw [← hu]
          exact ht
        have hsolid : declares = true → u.token.lexeme.isSolid = true := by
          rw [← hu]
          exact hdeclares
        refine ⟨fun hx => ?_, fun _ => ?_⟩
        · refine (declarators_emits hg _ true).run (hlaid.next (hsolid hx)) fun vars v hv => ?_
          exact loopRest_run hg (s := v.inScope t.scope) hv
        · refine hg.expression.push hlaid fun e v hv => ?_
          simp only [yields_steps]
          exact loopRest_run hg (s := v.inScope t.scope) hv
      clear_value first
      simp only [yields_steps]
      exact ⟨fun hx => hfirst true fun _ => isSolid_of_isAny hx, fun _ =>
        ⟨fun hx => hfirst _ fun _ => isSolid_of_is hx, fun _ =>
          ⟨fun hx => hfirst _ fun _ => isSolid_of_is hx, fun _ => hfirst false nofun⟩⟩⟩
    clear_value parts
    simp only [yields_steps]
    exact ⟨fun _ => hparts _, fun _ => hparts false⟩
  simp only [awaited]
  clear_value head
  simp only [yields_steps]
  refine ⟨fun hx => ?_, fun _ => hhead s h⟩
  have hnext := (h.eat hx).weaken (m := m)
  exact ⟨fun _ => hhead _ hnext, fun _ => hhead _ hnext⟩

theorem switchCase_emits : Emits source true (switchCase g) fun ns => ns := by
  intro s lo m ns h
  simp -zeta only [switchCase, yields_steps]
  extract_lets body
  have hbody (test : List Node) (t : State) (ht : Laid source lo true t (ns ++ test)) :
      Yields (body test) (fun parts u => Laid source lo (true || m) u (ns ++ parts)) t := by
    simp only [body, yields_steps]
    intro hx
    refine (emits_many_nodes (fun u => ?_) (statement_sound hg false)).run (ht.eat hx)
      fun statements u hu => ?_
    · simp only [yields_steps]
    · simp only [yields_steps]
      simpa using hu
  clear_value body
  simp only [yields_steps, yields_eat]
  refine ⟨fun hx => hbody [] _ (by simpa using h.eat hx), fun _ hx => ?_⟩
  refine (innerExpression_sound hg).push (h.eat hx) fun test t ht => ?_
  simp only [yields_steps]
  exact hbody [test] t ht

theorem tryStatement_run (h : Laid source lo m s ns) (hsolid : s.token.lexeme.isSolid = true) :
    Yields (tryStatement g) (fun parts t => Laid source lo true t (ns ++ parts)) s := by
  simp -zeta only [tryStatement, yields_steps]
  refine (block_emits hg).run (h.next hsolid) fun tried t ht => ?_
  simp -zeta only [yields_steps]
  extract_lets blockEnd after caught
  have hafter (caught : Option (List Node)) (u : State)
      (hu : Laid source lo true u (ns ++ tried ++ caught.getD [])) :
      Yields (after caught) (fun parts v => Laid source lo true v (ns ++ parts)) u := by
    simp -zeta only [after, yields_steps]
    extract_lets finish
    have hfinish (final : Option (List Node)) (v : State)
        (hv : Laid source lo true v (ns ++ tried ++ caught.getD [] ++ final.getD [])) :
        Yields (finish final) (fun parts w => Laid source lo true w (ns ++ parts)) v := by
      have hparts : Laid source lo true v (ns ++ (tried ++ caught.getD [] ++ final.getD [])) := by
        simpa using hv
      simp only [finish, yields_steps]
      exact ⟨fun _ => hparts, fun _ => hparts⟩
    clear_value finish
    simp only [yields_steps, yields_eat]
    refine ⟨fun hx => ?_, fun _ => hfinish none u (by simpa using hu)⟩
    refine (block_emits hg).run (hu.eat hx) fun final v hv => ?_
    simp only [yields_steps]
    exact hfinish (some final) v hv
  have hcaught (parameter : List Node) (u : State)
      (hu : Laid source lo true u (ns ++ tried ++ parameter)) :
      Yields (caught parameter) (fun parts v => Laid source lo true v (ns ++ parts)) u := by
    simp only [caught, yields_steps]
    clear_value after
    refine (block_emits hg).run hu fun body v hv => ?_
    simp only [yields_steps]
    exact hafter (some (parameter ++ body)) v (by simpa using hv)
  clear_value after blockEnd caught
  simp only [yields_steps, yields_eat]
  refine ⟨fun hcatch => ⟨fun hx => ?_, fun _ => hcaught [] _ (by simpa using ht.eat hcatch)⟩,
    fun _ => hafter none t (by simpa using ht)⟩
  refine hg.pattern.push ((ht.eat hcatch).eat hx) fun p u hu => ?_
  simp only [yields_steps]
  refine (typeMark_emits hg).run hu fun type v hv => ?_
  simp only [yields_steps]
  exact fun hx => hcaught (p :: type) _ (by simpa using hv.eat hx)

omit hg in
theorem ite_eq_some {α : Type} {c : Prop} [Decidable c] {a b : α} {x : Option α}
    (h : (if c then some a else x) = some b) : c ∧ a = b ∨ x = some b := by
  split at h
  · exact .inl ⟨‹c›, Option.some.inj h⟩
  · exact .inr h

/-- A statement with a keyword of its own, up to its end. -/
theorem control_run {rest : Parser (List Node)} (hrest : control g s.token = some rest)
    (h : Laid source lo m s ns) :
    Yields rest (fun parts t => Laid source lo true t (ns ++ parts)) s := by
  rw [control] at hrest
  have hbody := statement_sound hg true
  have hend (t : State) (parts : List Node) (ht : Laid source lo true t (ns ++ parts)) :
      Yields (do terminator; return parts)
        (fun parts u => Laid source lo true u (ns ++ parts)) t := by
    simp only [yields_steps]
    refine passes_terminator.run ht fun _ u hu => ?_
    simp only [yields_steps]
    exact hu
  simp only [yields_steps] at hend
  rcases ite_eq_some hrest with ⟨hx, rfl⟩ | hrest
  · simp only [yields_steps]
    refine (parenthesized_emits hg).run (h.eat hx) fun test t ht => ?_
    simp only [yields_steps]
    refine hbody.push ht fun yes u hu => ?_
    simp only [yields_steps, yields_eat]
    refine ⟨fun hx => ?_, fun _ => by simpa using hu⟩
    refine hbody.push (hu.eat hx) fun no v hv => ?_
    simp only [yields_steps]
    simpa using hv
  rcases ite_eq_some hrest with ⟨hx, rfl⟩ | hrest
  · simp only [yields_steps]
    refine (loopHead_emits hg _).run (h.eat hx) fun head t ht => ?_
    simp only [yields_steps]
    intro hclose
    refine hbody.push (ht.eat hclose) fun body u hu => ?_
    simp only [yields_steps]
    simpa using hu
  rcases ite_eq_some hrest with ⟨hx, rfl⟩ | hrest
  · simp only [yields_steps]
    rw [Bool.or_eq_true] at hx
    have hnext : Laid source lo true s.next ns := hx.elim h.eat h.eat
    refine (parenthesized_emits hg).run hnext fun test t ht => ?_
    simp only [yields_steps]
    refine hbody.push ht fun body u hu => ?_
    simp only [yields_steps]
    simpa using hu
  rcases ite_eq_some hrest with ⟨hx, rfl⟩ | hrest
  · simp only [yields_steps]
    refine hbody.push (h.eat hx) fun body t ht => ?_
    simp only [yields_steps]
    intro hwhile
    refine (parenthesized_emits hg).run (ht.eat hwhile) fun test u hu => ?_
    simp only [yields_steps]
    refine (passes_eat ";").run hu fun _ v hv => ?_
    simp only [yields_steps]
    simpa using hv
  rcases ite_eq_some hrest with ⟨hx, rfl⟩ | hrest
  · simp only [yields_steps]
    refine ⟨fun _ => ?_, fun _ => hend _ [] (by simpa using h.eatAny hx)⟩
    refine bindingName_passes.run (h.eatAny hx) fun _ t ht => ?_
    simp only [yields_steps]
    exact hend t [] (by simpa using ht)
  rcases ite_eq_some hrest with ⟨hx, rfl⟩ | hrest
  · have hnext := h.eat hx
    have hreturn (t : State) (ht : Laid source lo true t ns) :
        Yields (do
          let e ← if ← mayEnd then pure [] else pure [← innerExpression g]
          terminator
          return e) (fun parts u => Laid source lo true u (ns ++ parts)) t := by
      simp only [yields_steps]
      refine ⟨fun _ => hend t [] (by simpa using ht), fun _ => ?_⟩
      refine (innerExpression_sound hg).push ht fun e u hu => ?_
      simp only [yields_steps]
      exact hend u [e] hu
    simp only [yields_steps] at hreturn ⊢
    exact ⟨fun _ => hreturn _ hnext, fun _ => hreturn _ hnext⟩
  rcases ite_eq_some hrest with ⟨hx, rfl⟩ | hrest
  · have hnext := h.eat hx
    have hthrow (t : State) (ht : Laid source lo true t ns) :
        Yields (do
          let e ← innerExpression g
          terminator
          return [e]) (fun parts u => Laid source lo true u (ns ++ parts)) t := by
      simp only [yields_steps]
      refine (innerExpression_sound hg).push ht fun e u hu => ?_
      simp only [yields_steps]
      exact hend u [e] hu
    simp only [yields_steps] at hthrow ⊢
    exact ⟨fun _ => hthrow _ hnext, fun _ => hthrow _ hnext⟩
  rcases ite_eq_some hrest with ⟨hx, rfl⟩ | hrest
  · simp only [yields_steps]
    exact hend _ [] (by simpa using h.eat hx)
  rcases ite_eq_some hrest with ⟨hx, rfl⟩ | hrest
  · simp only [yields_steps]
    refine (parenthesized_emits hg).run (h.eat hx) fun e t ht => ?_
    simp only [yields_steps]
    intro hopen
    refine (emits_many (f := fun ns => ns) (fun _ => True) (fun u => ?_)
      (fun u lo m ns _ hu => ?_)).run (ht.eat hopen) fun cases u hu => ?_
    · simp only [yields_steps]
      exact ⟨trivial, fun _ => trivial⟩
    · exact (switchCase_emits hg).run hu fun _ _ hv => hv
    · simp only [yields_steps]
      intro hclose
      simpa [List.flatMap_id'] using hu.eat hclose
  rcases ite_eq_some hrest with ⟨hx, rfl⟩ | hrest
  · exact tryStatement_run hg h (isSolid_of_is hx)
  · cases hrest

theorem decorated_sound : Sound source (decorated g) := by
  intro s hs
  simp only [decorated, yields_steps]
  refine (decorators_emits hg).run hs.begin fun marks t ht => ?_
  simp only [yields_steps]
  refine ⟨fun _ => exportDeclaration_run hg ht, fun _ => ⟨fun _ => classFrom_plain hg ht,
    fun _ => ?_⟩⟩
  refine steady_seesDeclaration.run fun declares => ?_
  simp only [yields_steps]
  refine ⟨fun _ => ?_, fun _ => trivial⟩
  exact (declaration_run hg .none ht).mono fun _ _ hu => hu.1

omit hg in
/-- Where `using` declares bindings, the word is next, once `await` is gone past. -/
theorem seesUsing_run {Q : Bool → State → Prop}
    (k : ∀ b, (b = true → if s.token.is "await" then s.next.token.is "using" = true
      else s.token.is "using" = true) → Q b s) : Yields seesUsing Q s := by
  refine ahead_run ?_ k
  simp only [yields_steps, yields_eat]
  refine ⟨fun hawait => ⟨fun hx => ?_, fun _ => by simp⟩, fun hawait => ⟨fun hx => ?_, fun _ => by simp⟩⟩
  · simp [hawait, hx]
  · simp [hawait, hx]

theorem statement_layout (single : Bool) : Sound source (statement g single) := by
  intro s hs
  simp only [statement, yields_steps]
  split
  · rename_i rest hrest
    simp only [yields_steps]
    refine (control_run hg hrest hs.begin).mono fun parts t ht => ?_
    simp only [yields_steps]
    exact ht.plain rfl rfl rfl
  · have hstart := hs.begin
    have hnoted : Laid source s.token.span.start false (s.noting s.token.span.start) [] := hstart
    simp only [yields_steps]
    refine ⟨fun _ => ?_, fun _ => ⟨fun hx => hs.leaf (isSolid_of_is hx) rfl rfl rfl, fun _ =>
      ⟨fun _ => decorated_sound hg s hs, fun _ => ⟨fun _ => ⟨fun _ => classFrom_plain hg hnoted,
        fun _ => classFrom_plain hg hstart⟩, fun _ => ⟨fun _ => exportDeclaration_run hg hstart,
          fun _ => ⟨fun hx => bindings_run hg hstart (isSolid_of_is hx), fun _ => ⟨fun hx =>
            ⟨fun _ => enumeration_run hg true (hstart.eat hx), fun _ => ?_⟩, fun _ => ⟨fun hx => ?_,
              fun _ => ⟨fun _ => ⟨fun _ => functionFrom_run hg _ _ hnoted,
                fun _ => functionFrom_run hg _ _ hstart⟩, fun _ => ?_⟩⟩⟩⟩⟩⟩⟩⟩⟩
    · refine (block_emits hg).run hstart fun body t ht => ?_
      simp only [yields_steps]
      exact ht.plain rfl rfl rfl
    · exact ⟨fun _ => bindings_run hg hnoted (isSolid_of_is hx),
        fun _ => bindings_run hg hstart (isSolid_of_is hx)⟩
    · simp only [seesLet, yields_steps]
      exact ⟨fun _ => bindings_run hg hstart (isSolid_of_is hx),
        fun _ => expressionStatement_sound hg s hs⟩
    refine seesAsyncFunction_run fun isAsync hasync => ?_
    simp only [yields_steps]
    refine ⟨fun hx => ?_, fun _ => ⟨fun hx => ?_, fun _ => ?_⟩⟩
    · have hnext := hstart.eat (hasync hx)
      exact ⟨fun _ => functionFrom_run hg (s := (s.noting s.token.span.start).next) _ _ hnext,
        fun _ => functionFrom_run hg _ _ hnext⟩
    · rw [Bool.and_eq_true] at hx
      exact importRest_run (hstart.eat hx.1)
    refine seesUsing_run fun b husing => ?_
    simp only [yields_steps, yields_eat]
    refine ⟨fun hb => ⟨fun hx => ?_, fun hx => ?_⟩, fun _ => ⟨fun _ => ?_,
      fun _ => expressionStatement_sound hg s hs⟩⟩
    · have hword := husing hb
      rw [if_pos hx] at hword
      exact bindings_run hg (hstart.eat hx) (isSolid_of_is hword)
    · have hword := husing hb
      rw [if_neg hx] at hword
      exact bindings_run hg hstart (isSolid_of_is hword)
    · refine steady_seesDeclaration.run fun declares => ?_
      simp only [yields_steps]
      refine ⟨fun _ => ?_, fun _ => expressionStatement_sound hg s hs⟩
      exact (declaration_run hg .none hstart).mono fun _ _ ht => ht.1

omit hg in
theorem control_semicolon {token : Token} (h : token.is ";" = true) : control g token = none := by
  have his (x : String) (hx : x ≠ ";") : token.is x = false := is_eq_false h hx.symm
  simp [control, his, Token.isAny]

/-- A statement that begins with a `;` is empty. -/
theorem statement_run (single : Bool) (hs : Placed source s) :
    Yields (statement g single) (fun n t => Done source s.token.span.start n t ∧
      (source.Starts s.token.span.start ∨ ∃ span, n = .other span [])) s := by
  by_cases hsemi : s.token.is ";" = true
  · have hbrace : s.token.is lbrace = false := is_eq_false hsemi (by decide)
    simp only [statement, yields_steps, control_semicolon hsemi, hbrace, hsemi]
    exact ⟨hs.leaf (isSolid_of_is hsemi) rfl rfl rfl, .inr ⟨_, rfl⟩⟩
  · refine (statement_layout hg single s hs).mono fun n t ht => ⟨ht, .inl ?_⟩
    exact hs.starts ht.trail.2.1 (by simpa using hsemi)

end

end Parser

end Codemod
