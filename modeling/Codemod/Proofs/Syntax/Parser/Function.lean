import Codemod.Syntax.Parser.Function
import Codemod.Proofs.Syntax.Parser.Type

/-!
# Codemod.Proofs.Syntax.Parser.Function

The layout of functions, methods, object literals and classes.

A class may begin behind the decorators that belong to it (`Marked`): then all of it but those
decorators stands behind its beginning (`Behind`).
-/

namespace Codemod

namespace Parser

variable {source : Text} {g : Grammar} {lo start : Nat} {m : Bool} {s t : State}
  {ns marks : List Node} {n : Node}

/-- Decorators from `lo` on that stand before `start`, where their class begins. -/
structure Marked (source : Text) (lo start : Nat) (marks : List Node) : Prop where
  row : Node.Row lo start marks
  tidy : ∀ c ∈ marks, c.Tidy source
  opens : lo = start ∨ source.Opens lo

theorem Laid.marked (h : Laid source lo m s marks) :
    Marked source lo s.token.span.start marks := by
  refine ⟨h.row, h.tidy, ?_⟩
  rcases h.2 with ⟨⟨-, hopens, -⟩, -⟩ | ⟨-, rfl, -⟩
  · exact .inr hopens
  · exact .inl rfl

theorem Marked.none : Marked source start start [] :=
  ⟨.nil (Nat.le_refl _), by simp, .inl rfl⟩

/-- What was read since `start` comes behind the decorators. -/
theorem Marked.append (h : Marked source lo start marks) (hns : Laid source start true s ns) :
    Laid source lo true s (marks ++ ns) := by
  obtain ⟨hlt, hopens, hrow, htidy⟩ := hns.trail
  have hle := h.row.le
  refine ⟨hns.placed, .inl ⟨⟨by omega, ?_, h.row.append hrow, ?_⟩, hns.closes⟩⟩
  · rcases h.opens with rfl | h
    · exact hopens
    · exact h
  · intro n hn
    rcases List.mem_append.mp hn with hn | hn
    · exact h.tidy n hn
    · exact htidy n hn

/-- All of the tree but the decorators stands behind `start`. -/
def Behind (start : Nat) (marks : List Node) (n : Node) : Prop :=
  ∀ c ∈ n.postorder, (∃ d ∈ marks, c ∈ d.postorder) ∨ start ≤ c.span.start

/-- A declaration that decorators from `lo` on may belong to begins at `start`. -/
def Declared (source : Text) (lo start : Nat) (marks : List Node) (n : Node) (t : State) : Prop :=
  Done source lo n t ∧ start < t.lastStop ∧ Behind start marks n

theorem Marked.declared (h : Marked source lo start marks) (hn : Done source start n s) :
    Declared source lo start marks n s := by
  refine ⟨(h.append hn).sublist (by simp), hn.trail.1, fun c hc => .inr ?_⟩
  exact (hn.trail.2.2.1.within n (List.mem_singleton_self n) c hc).1

/-- A head up to a brace, and the members up to the other one, make up a class. -/
theorem Marked.classDef {head members : List Node} {name : Option String}
    (hmarks : Marked source lo start marks) (hs : Laid source start true s head)
    (hopen : s.token.is lbrace = true) (ht : Laid source s.next.token.span.start false t members)
    (hstarts : ∀ n ∈ members, n.Starts source) (hclose : t.token.is rbrace = true) :
    Declared source lo start marks (.classDef ⟨start, t.token.span.stop⟩ name (marks ++ head)
      ⟨s.token.span.start, t.token.span.stop⟩ members) t.next := by
  have hbody := ht.eat hclose
  have hall := (hs.eat hopen).append hbody
  have hwhole := hmarks.append hall
  have hbrace : s.token.span.stop = s.token.span.start + 1 := hs.placed.standing.stop_eq hopen
  have hbrace' : t.token.span.stop = t.token.span.start + 1 := ht.placed.standing.stop_eq hclose
  have hle : s.token.span.stop ≤ s.next.token.span.start := (hs.eat hopen).placed.standing.le
  have hle' := ht.le_start
  have hstart := hs.le_start
  have hparts : ∀ c ∈ head ++ members, c.Within start t.token.span.stop :=
    hall.trail.2.2.1.within
  have hlt : start < t.token.span.stop := hall.trail.1
  refine ⟨hwhole.enclose hmarks.row.le hlt hall.trail.2.1 rfl (by simp [Node.children]) ?_, hlt, ?_⟩
  · have hsemi : t.token.is ";" = false := is_eq_false hclose (by decide)
    have hcloses := hs.placed.standing.closes (isSolid_of_is hopen)
    rw [hbrace] at hcloses
    refine ⟨hstart, by show s.token.span.start + 1 < t.token.span.stop; omega, rfl, hcloses, ?_,
      ⟨lo, hmarks.row.append hs.row⟩, ?_, ?_, hstarts⟩
    · show source.Starts (t.token.span.stop - 1)
      rw [hbrace', Nat.add_sub_cancel]
      exact ht.placed.starts (ht.placed.standing.opens (isSolid_of_is hclose)) hsemi
    · intro c hc
      rcases List.mem_append.mp hc with hc | hc
      · exact fun d hd => .inl (hmarks.row.within c hc d hd).2
      · exact (hs.row.within c hc).clear (Nat.le_refl _)
    · refine ht.row.mono (by show s.token.span.start + 1 ≤ _; omega) ?_
      show t.token.span.start ≤ t.token.span.stop - 1
      omega
  · intro c hc
    rcases Node.mem_postorder.mp hc with rfl | ⟨d, hd, hc⟩
    · exact .inr (Nat.le_refl _)
    · have hd : d ∈ marks ++ (head ++ members) := by
        simpa [Node.children] using hd
      rcases List.mem_append.mp hd with hd | hd
      · exact .inl ⟨d, hd, hc⟩
      · exact .inr (hparts d hd c hc).1

/-- A key and the function behind it make up a method. -/
theorem Laid.method {k : Key} {u v : State} {f : Node} (hs : Laid source lo m s marks)
    (hk : KeyFrom s t k) (hle : t.lastStop ≤ u.token.span.start)
    (hu : Laid source lo true u (marks ++ k.parts))
    (hf : Laid source u.token.span.start true v [f]) :
    Done source lo (.method ⟨lo, v.lastStop⟩ k.name k.span (marks ++ k.parts ++ [f])) v := by
  have hall := hu.append hf
  obtain ⟨-, -, hrow, -⟩ := hall.trail
  obtain ⟨hlt, -, hfrow, -⟩ := hf.trail
  refine hall.build rfl rfl ⟨hrow, fun hname => ?_⟩
  obtain ⟨hspan, hstop, hparts⟩ := hk.named hname
  have hstanding := hs.placed.standing
  rw [hspan]
  refine ⟨⟨hstanding.lt hk.solid, hstanding.opens hk.solid, hstanding.closes hk.solid⟩,
    hs.le_start, by show s.token.span.stop ≤ v.lastStop; omega, ?_⟩
  intro p hp
  rw [List.mem_append, List.mem_append, List.mem_singleton] at hp
  rcases hp with (hp | hp) | rfl
  · exact .inr fun c hc => .inl (hs.row.within p hp c hc).2
  · rcases hparts with hnil | ⟨value, hone⟩
    · rw [hnil] at hp
      cases hp
    · rw [hone, List.mem_singleton] at hp
      exact .inl ⟨value, by rw [hp, hspan]⟩
  · refine .inr fun c hc => .inr ?_
    have := (hfrow.within p (List.mem_singleton_self p) c hc).1
    omega

section

variable (hg : Grammar.Sound source g)
include hg

theorem statement_sound (single : Bool) : Sound source (g (.statement single)) :=
  fun s hs => (hg.statement single s hs).mono fun _ _ h => h.1

theorem block_emits : Emits source true (block g) fun ns => ns := by
  intro s lo m ns h
  simp only [block, yields_steps]
  intro hx
  refine (emits_itemsUntil (statement_sound hg false)).run (h.eat hx) fun body t ht => ?_
  simp only [yields_steps]
  exact fun hx => ht.eat hx

theorem functionParts_emits (isAsync isGenerator : Bool) (arity : Option Nat) :
    Emits source true (functionParts g isAsync isGenerator arity) fun ns => ns := by
  refine Emits.within ?_ _
  intro s lo m ns h
  simp -zeta only [yields_steps]
  refine (typeParameters_emits hg).run h fun generics t ht => ?_
  simp -zeta only [yields_steps]
  refine (parameters_emits hg).run ht fun ps u hu => ?_
  simp -zeta only [yields_steps]
  refine (typedResult_emits hg).run hu fun result v hv => ?_
  simp -zeta only [yields_steps]
  extract_lets count finish
  have hfinish (body : List Node) (w : State)
      (hw : Laid source lo true w (ns ++ generics ++ ps ++ result ++ body)) :
      Yields (finish body)
        (fun parts x => Laid source lo (true || m) x (ns ++ parts)) w := by
    simp only [finish, yields_steps]
    have hparts : Laid source lo true w (ns ++ (generics ++ ps ++ result ++ body)) := by
      simpa using hw
    exact ⟨fun _ => hparts, fun _ => hparts⟩
  clear_value finish
  simp only [yields_steps]
  refine ⟨fun _ => ?_, fun _ => ⟨fun _ => ?_, fun _ => trivial⟩⟩
  · refine (block_emits hg).run hv fun body w hw => ?_
    simp only [yields_steps]
    exact hfinish body w hw
  · refine passes_terminator.run hv fun _ w hw => ?_
    simp only [yields_steps]
    exact hfinish [] w (by simpa using hw)

theorem functionFrom_run (isAsync declared : Bool) (h : Laid source start m s []) :
    Yields (functionFrom g start isAsync declared) (Done source start) s := by
  simp -zeta only [functionFrom, yields_steps]
  intro hx
  refine (passes_eat "*").run (h.eat hx) fun isGenerator t ht => ?_
  simp -zeta only [yields_steps]
  extract_lets finish
  have hfinish (name : Option String) (u : State) (hu : Laid source start true u []) :
      Yields (finish name) (Done source start) u := by
    simp only [finish, yields_steps]
    refine (functionParts_emits hg _ _ _).run hu fun parts v hv => ?_
    simp only [yields_steps]
    exact hv.plain rfl rfl rfl
  clear_value finish
  simp only [yields_steps]
  refine ⟨fun _ => ?_, fun _ => ⟨fun _ => hfinish none _ ht, fun _ => hfinish none t ht⟩⟩
  refine bindingName_passes.run ht fun name u hu => ?_
  simp only [yields_steps]
  exact hfinish _ u hu

theorem methodFunction_sound (isAsync isGenerator : Bool) (arity : Option Nat) :
    Sound source (methodFunction g isAsync isGenerator arity) := by
  intro s hs
  simp only [methodFunction, yields_steps]
  refine (functionParts_emits hg _ _ _).run hs.begin fun parts t ht => ?_
  simp only [yields_steps]
  exact ht.plain rfl rfl rfl

theorem objectProperty_sound : Sound source (objectProperty g) := by
  intro s hs
  simp -zeta only [objectProperty, yields_steps, yields_eat]
  refine ⟨fun hx => ?_, fun _ => ?_⟩
  · refine (inner_sound hg).push (hs.begin.eat hx) fun e t ht => ?_
    simp only [yields_steps]
    exact ht.plain rfl rfl rfl
  extract_lets afterAsync
  have hafterAsync (isAsync : Bool) (hasync : isAsync = true → s.token.is "async" = true) :
      Yields (afterAsync isAsync) (Done source s.token.span.start) s := by
    simp -zeta only [afterAsync]
    extract_lets afterWord
    have hafterWord (t : State) (ht : Laid source s.token.span.start false t [])
        (hts : isAsync = false → t = s) :
        Yields (afterWord ()) (Done source s.token.span.start) t := by
      simp -zeta only [afterWord, yields_steps]
      refine eat_run ht fun isGenerator u hu hus => ?_
      simp -zeta only [yields_steps]
      extract_lets afterAccess
      have hafterAccess (isAccessor : Bool)
          (haccess : isAccessor = true → u.token.isAny ["get", "set"] = true) :
          Yields (afterAccess isAccessor) (Done source s.token.span.start) u := by
        simp -zeta only [afterAccess, yields_steps]
        extract_lets arity atKey
        have hatKey (v : State) (hv : Laid source s.token.span.start false v [])
            (hvs : isAccessor = false → v = u) :
            Yields (atKey ()) (Done source s.token.span.start) v := by
          simp only [atKey, yields_steps]
          refine key_run hg hv fun k w hw hk => ?_
          simp only [yields_steps, yields_eat]
          refine ⟨fun _ => ?_, fun hplain => ⟨fun hx => ?_, fun _ => ⟨fun hname => ?_, fun _ => trivial⟩⟩⟩
          · refine (methodFunction_sound hg _ _ _).push hw fun f x hx => ?_
            simp only [yields_steps]
            exact hx.plain rfl rfl rfl
          · refine (inner_sound hg).push (hw.eat hx) fun value x hx => ?_
            simp only [yields_steps]
            exact hx.plain rfl rfl rfl
          · -- a name alone is the first token, and stands for its value, too
            simp only [Bool.or_eq_true, not_or, Bool.not_eq_true] at hplain
            obtain rfl : v = s := by
              rw [hvs hplain.1.2, hus hplain.1.1.2, hts hplain.1.1.1]
            have hword := hk.word (isWord_of_isName hname)
            obtain ⟨hspan, hstop, -⟩ := hk.named hword.1
            have hkey : k.span = ⟨v.token.span.start, w.lastStop⟩ := by rw [hspan, hstop]
            rw [hword.2] at hw
            have hreference := hw.plain (n := .reference k.span (k.name.getD "")) hkey rfl rfl
            refine ⟨fun hx => ?_, fun _ => hreference.plain hkey rfl rfl⟩
            refine (inner_sound hg).push (hreference.eat hx) fun value x hx => ?_
            simp only [yields_steps]
            have hassign := hx.plain (n := .assign ⟨v.token.span.start, x.lastStop⟩
              (.reference k.span (k.name.getD "")) value) rfl rfl rfl
            exact hassign.plain rfl rfl rfl
        clear_value arity atKey
        simp only [yields_steps]
        refine ⟨fun hx => hatKey _ (hu.eatAny (haccess hx)).weaken ?_, fun hx => hatKey u hu ?_⟩
        · simp [hx]
        · exact fun _ => rfl
      clear_value afterAccess
      simp only [yields_steps]
      refine ⟨fun hx => ?_, fun _ => hafterAccess false nofun⟩
      rw [Bool.and_eq_true] at hx
      exact hafterAccess _ fun _ => hx.2
    clear_value afterWord
    simp only [yields_steps]
    refine ⟨fun hx => hafterWord _ (hs.begin.eat (hasync hx)).weaken (by simp [hx]), fun _ => ?_⟩
    exact hafterWord s hs.begin fun _ => rfl
  clear_value afterAsync
  simp only [yields_steps]
  exact ⟨fun hx => hafterAsync _ fun _ => hx, fun _ => hafterAsync false nofun⟩

theorem objectLiteral_sound : Sound source (objectLiteral g) := by
  intro s hs
  simp only [objectLiteral, yields_steps]
  intro hopen
  -- the properties are a row of their own, behind the brace
  have hinside := (hs.begin.eat hopen).placed
  refine emits_separated (objectProperty_sound hg) (by decide) hinside.begin
    fun properties t ht => ?_
  simp only [yields_steps]
  intro hclose
  have hall := (hs.begin.eat hopen).append (ht.eat hclose)
  have hbrace := hs.standing.stop_eq hopen
  have hbrace' := ht.placed.standing.stop_eq hclose
  have hle : s.token.span.stop ≤ s.next.token.span.start := hinside.standing.le
  refine hall.build rfl rfl ⟨(hs.standing.hasAt hopen rfl).1,
    (ht.placed.standing.hasAt hclose rfl).2, ht.row.mono ?_ ?_⟩
  · show s.token.span.start + 1 ≤ s.next.token.span.start
    exact hbrace ▸ hle
  · show t.token.span.start ≤ t.token.span.stop - 1
    exact Nat.le_sub_of_add_le (Nat.le_of_eq hbrace'.symm)

omit hg in
theorem modifiers_passes : Passes source false modifiers := by
  intro s lo m ns h
  refine yields_repeatFrom (fun _ t => Laid source lo m t ns) (fun words t ht => ?_) h
  have hsees : Yields seesModifier
      (fun b u => u = t ∧ (b = true → t.token.lexeme.isSolid = true)) t := by
    simp only [seesModifier, yields_steps]
    exact ⟨fun hx => ⟨trivial, fun _ => isSolid_of_is hx⟩, fun _ =>
      ⟨fun hx => ⟨trivial, fun _ => isSolid_of_isAny hx⟩, fun _ => ⟨trivial, nofun⟩⟩⟩
  simp -zeta only [yields_steps]
  refine hsees.mono ?_
  rintro b _ ⟨rfl, hsolid⟩
  simp only [yields_steps]
  refine ⟨fun _ => ht, fun hb => ?_⟩
  have hb : b = true := by simpa using hb
  have hnext := (ht.next (hsolid hb)).weaken (m := m)
  split
  · simp only [yields_steps]
    exact ⟨fun _ => ⟨fun _ => hnext, fun _ => hnext⟩, fun _ => ⟨fun _ => hnext, fun _ => hnext⟩⟩
  · simp only [yields_steps]
    exact ⟨fun _ => hnext, fun _ => hnext⟩

omit hg in
theorem fieldEnd_passes : Passes source false fieldEnd := by
  intro s lo m ns h
  simp only [fieldEnd, yields_steps, yields_eat]
  exact ⟨fun hx => (h.eat hx).weaken, fun _ => ⟨fun _ => h, fun _ => trivial⟩⟩

omit hg in
/-- Looking at the name of a member does not move. -/
theorem checkMemberName_run {words : List String} {token : Token} {k : Key}
    {isField isPlain : Bool} {Q : Unit → State → Prop} (h : Laid source lo m s ns)
    (hQ : ∀ t, t.token = s.token → Laid source lo m t ns → Q () t) :
    Yields (checkMemberName words token k isField isPlain) Q s := by
  simp only [checkMemberName, yields_steps]
  exact ⟨fun _ => hQ (s.noting _) rfl h, fun _ => hQ s rfl h⟩

/-- A member of a class begins with the current token. -/
theorem classMember_run (hs : Placed source s) :
    Yields (classMember g) (fun n t => Done source s.token.span.start n t ∧
      n.span.start = s.token.span.start) s := by
  simp -zeta only [classMember, yields_steps]
  refine (decorators_emits hg).run hs.begin fun marks t ht => ?_
  simp -zeta only [yields_steps]
  refine ⟨fun hx => ?_, fun _ => ?_⟩
  · rw [Bool.and_eq_true] at hx
    refine ((block_emits hg).within _).run (ht.eat hx.1) fun body u hu => ?_
    simp only [yields_steps]
    exact ⟨hu.plain rfl rfl rfl, rfl⟩
  refine modifiers_passes.run ht fun words t ht => ?_
  simp -zeta only [yields_steps]
  refine (decorators_emits hg).run ht fun late t ht => ?_
  simp -zeta only [yields_steps]
  extract_lets marks isAsync member
  change Laid source s.token.span.start false t marks at ht
  have hmember (isAccessor : Bool)
      (haccess : isAccessor = true → t.token.isAny ["get", "set"] = true) :
      Yields (member isAccessor) (fun n t => Done source s.token.span.start n t ∧
        n.span.start = s.token.span.start) t := by
    simp -zeta only [member, yields_steps]
    clear_value marks isAsync
    extract_lets arity afterWord
    have hafterWord (u : State) (hu : Laid source s.token.span.start false u marks) :
        Yields (afterWord ()) (fun n t => Done source s.token.span.start n t ∧
          n.span.start = s.token.span.start) u := by
      simp -zeta only [afterWord, yields_steps]
      refine (passes_eat "*").run hu fun isGenerator v hv => ?_
      simp -zeta only [yields_steps]
      extract_lets atKey
      simp only [yields_steps]
      refine ⟨fun _ => trivial, fun _ => ?_⟩
      simp -zeta only [atKey, yields_steps]
      refine key_run hg hv fun k w hw hk => ?_
      simp -zeta only [yields_steps]
      extract_lets body
      have hbody (x : State) (hle : w.lastStop ≤ x.token.span.start)
          (hx : Laid source s.token.span.start true x (marks ++ k.parts)) :
          Yields (body ()) (fun n t => Done source s.token.span.start n t ∧
            n.span.start = s.token.span.start) x := by
        simp -zeta only [body, yields_steps]
        refine ⟨fun _ => ?_, fun _ => ?_⟩
        · refine checkMemberName_run hx fun y hy hlaid => ?_
          simp only [yields_steps]
          refine (methodFunction_sound hg _ _ _ y hlaid.placed).mono fun f z hf => ?_
          simp only [yields_steps]
          exact ⟨hv.method hk (by rwa [hy]) hlaid hf, rfl⟩
        · refine checkMemberName_run hx fun y _ hlaid => ?_
          simp -zeta only [yields_steps]
          refine (typeMark_emits hg).run hlaid fun type y hlaid => ?_
          simp -zeta only [yields_steps]
          extract_lets finish
          have hfinish (init : List Node) (z : State) (hz : Laid source s.token.span.start true z
              (marks ++ k.parts ++ type ++ init)) :
              Yields (finish init) (fun n t => Done source s.token.span.start n t ∧
                n.span.start = s.token.span.start) z := by
            simp only [finish, yields_steps]
            refine fieldEnd_passes.run hz fun _ z hz => ?_
            simp only [yields_steps]
            exact ⟨fun _ => ⟨hz.plain rfl rfl rfl, rfl⟩, fun _ => ⟨hz.plain rfl rfl rfl, rfl⟩⟩
          clear_value finish
          simp only [yields_steps, yields_eat]
          refine ⟨fun hx => ?_, fun _ => hfinish [] y (by simpa using hlaid)⟩
          refine ((hg.assignment true).within _).push (hlaid.eat hx) fun e z hz => ?_
          simp only [yields_steps]
          exact hfinish [e] z hz
      clear_value body
      simp only [yields_steps]
      refine ⟨fun hx => ?_, fun _ => hbody w hw.placed.standing.le hw⟩
      rw [Bool.and_eq_true] at hx
      exact hbody _ hw.placed.standing.le_next (hw.eatAny hx.2)
    clear_value arity afterWord
    simp only [yields_steps]
    exact ⟨fun hx => hafterWord _ (ht.eatAny (haccess hx)).weaken, fun _ => hafterWord t ht⟩
  clear_value marks isAsync member
  simp only [yields_steps]
  refine steady_seesIndexSignature.run fun b => ?_
  simp only [yields_steps]
  refine ⟨fun hx => ?_, fun _ => ⟨fun hx => hmember _ fun _ => hx, fun _ => hmember false nofun⟩⟩
  refine (indexSignature_emits hg).run ht fun parts u hu => ?_
  simp only [yields_steps]
  refine fieldEnd_passes.run hu fun _ v hv => ?_
  simp only [yields_steps]
  exact ⟨hv.plain rfl rfl rfl, rfl⟩

omit hg in
/-- Further items, each behind a comma. -/
theorem emits_commas {α : Type} {item : Parser α} {f : α → List Node}
    (hitem : Emits source true item f) :
    Emits source false (many (sees ",") do advance; item) fun items => items.flatMap f := by
  refine emits_many (fun t => t.token.is "," = true) (fun t => ?_) fun t lo m ns hx ht => ?_
  · simp only [yields_steps]
    exact ⟨trivial, id⟩
  · simp only [yields_steps]
    exact hitem.run (ht.eat hx) fun _ _ hu => hu

theorem heritage_emits : Emits source false (heritage g) fun ns => ns := by
  intro s lo m ns h
  simp -zeta only [heritage, yields_steps]
  refine (emits_many (f := fun ns => ns)
    (fun t => t.token.is "extends" = true ∨ t.token.is "implements" = true) ?_ ?_).run h
    fun clauses t ht => ?_
  · intro t
    simp only [yields_steps]
    exact ⟨fun hx => ⟨trivial, fun _ => .inl hx⟩,
      fun _ => ⟨fun _ => ⟨trivial, .inr⟩, fun _ => ⟨trivial, nofun⟩⟩⟩
  · intro t lo m ns hword ht
    simp -zeta only [yields_steps, yields_eat]
    refine ⟨fun hx => ?_, fun hx => ?_⟩
    · extract_lets base
      have hbase : Emits source true base fun ns => ns := by
        intro u lo m ns hu
        simp -zeta only [base, yields_steps]
        refine hg.operand.push hu fun name v hv => ?_
        simp only [seesTypeArguments, yields_steps]
        refine ⟨fun hx => ?_, fun _ => by simpa using hv⟩
        rw [Bool.and_eq_true] at hx
        refine typeArguments_run hg hv hx.2 fun types w hw => ?_
        simp only [yields_steps]
        simpa using hw
      clear_value base
      simp only [yields_steps]
      refine hbase.run (ht.eat hx) fun first u hu => ?_
      simp only [yields_steps]
      refine (emits_commas hbase).run hu fun more v hv => ?_
      simp only [yields_steps]
      simpa [List.flatMap_id'] using hv
    · extract_lets clause
      have hclause : Sound source clause := by
        intro u hu
        simp only [clause, yields_steps]
        refine entityName_sound.push hu.begin fun name v hv => ?_
        simp only [yields_steps]
        refine (typeArgumentsHere_emits hg).run hv fun types w hw => ?_
        simp only [yields_steps]
        exact hw.plain rfl rfl rfl
      clear_value clause
      simp only [yields_steps]
      refine hclause.push (ht.eat (hword.resolve_left hx)) fun first u hu => ?_
      simp only [yields_steps]
      refine (emits_commas hclause.emits).run hu fun more v hv => ?_
      simp only [yields_steps]
      simpa using hv
  · simp only [yields_steps]
    simpa [List.flatMap_id'] using ht

omit hg in
/-- Semicolons that are skipped, all of them. -/
theorem semicolons_run {Q : List Unit → State → Prop} (h : Laid source lo m s ns)
    (k : ∀ units t, Laid source lo m t ns → t.token.is ";" = false → Q units t) :
    Yields (many (sees ";") advance) Q s := by
  refine yields_many (fun _ t => Laid source lo m t ns) (fun units t ht => ?_) h
  simp only [yields_steps]
  exact ⟨fun hx => (ht.eat hx).weaken, fun hx => k units t ht (by simpa using hx)⟩

/-- The members of a class, with the semicolons behind each of them. -/
theorem classMembers_run (h : Laid source lo false s []) (hsemi : s.token.is ";" = false) :
    Yields (itemsUntil rbrace do
        let member ← classMember g
        let _ ← many (sees ";") advance
        return member)
      (fun members t => Laid source lo false t members ∧
        ∀ n ∈ members, n.Starts source) s := by
  refine yields_many (fun members t => (Laid source lo false t members ∧
      ∀ n ∈ members, n.Starts source) ∧ t.token.is ";" = false) ?_
    ⟨⟨h, by simp⟩, hsemi⟩
  rintro members t ⟨⟨ht, hstarts⟩, hsemi⟩
  simp only [yields_steps]
  refine ⟨fun _ => ?_, fun _ => ⟨ht, hstarts⟩⟩
  refine (classMember_run hg ht.placed).mono fun n u hu => ?_
  simp only [yields_steps]
  refine semicolons_run (ht.append hu.1) fun _ v hv hv' => ?_
  simp only [yields_steps]
  refine ⟨⟨hv.weaken, fun c hc => ?_⟩, hv'⟩
  rcases List.mem_append.mp hc with hc | hc
  · exact hstarts c hc
  · rw [List.mem_singleton.mp hc, Node.Starts, hu.2]
    refine ⟨ht.placed.starts hu.1.trail.2.1 hsemi, fun y hy => ?_⟩
    exact (hu.1.row.within n (List.mem_singleton_self n) y hy).1

/-- A class with the decorators before it. -/
theorem classFrom_run {more : List Node} (hmarks : Marked source lo start marks)
    (h : Laid source start m s more) :
    Yields (classFrom g start (marks ++ more)) (Declared source lo start marks) s := by
  simp -zeta only [classFrom, yields_steps]
  intro hx
  extract_lets rest
  have hrest (name : Option String) (t : State) (ht : Laid source start true t more) :
      Yields (rest name) (Declared source lo start marks) t := by
    simp only [rest, yields_steps]
    refine (typeParameters_emits hg).run ht fun generics u hu => ?_
    simp only [yields_steps]
    refine (heritage_emits hg).run hu fun bases v hv => ?_
    simp only [yields_steps]
    intro hopen
    have hinside := (hv.eat hopen).placed
    -- the members are a row of their own, behind the brace
    refine semicolons_run hinside.begin fun _ w hw hsemi => ?_
    simp only [yields_steps]
    refine (classMembers_run hg hw hsemi).mono fun members x hx => ?_
    simp only [yields_steps]
    intro hclose
    have hhead : marks ++ more ++ generics ++ bases = marks ++ (more ++ generics ++ bases) := by
      simp
    rw [hhead]
    exact hmarks.classDef hv hopen hx.1 hx.2 hclose
  clear_value rest
  simp only [yields_steps]
  refine ⟨fun _ => ?_, fun _ => hrest none _ (h.eat hx)⟩
  refine bindingName_passes.run (h.eat hx) fun name t ht => ?_
  simp only [yields_steps]
  exact hrest _ t ht

end

end Parser

end Codemod
