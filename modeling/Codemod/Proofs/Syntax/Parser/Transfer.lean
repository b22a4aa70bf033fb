import Codemod.Syntax.Parser.Transfer
import Codemod.Proofs.Syntax.Parser.Declaration

/-!
# Codemod.Proofs.Syntax.Parser.Transfer

The layout of imports and exports.

The parts of an import are the name of its module and the strings of its attributes. An export may
stand behind the decorators of the class that it exports; all of the class but those stands behind
the word `export`.
-/

namespace Codemod

namespace Parser

variable {source : Text} {g : Grammar} {lo start : Nat} {m : Bool} {s t : State}
  {ns marks : List Node} {n : Node}

/-- What holds of each item holds of all items in a list with commas. -/
theorem separated_forall {α : Type} {close : String} {item : Parser α} {P : α → Prop}
    (h : ∀ t, Yields item (fun a _ => P a) t) :
    Yields (separated close item) (fun items _ => ∀ a ∈ items, P a) s := by
  refine yields_repeatFrom (fun items _ => ∀ a ∈ items, P a) ?_ (by simp)
  intro items t hitems
  simp only [yields_steps]
  refine ⟨fun _ => by simpa using hitems, fun _ => (h t).mono fun a u ha => ?_⟩
  have hall : ∀ b ∈ a :: items, P b := by
    rw [List.forall_mem_cons]
    exact ⟨ha, hitems⟩
  simp only [yields_steps]
  exact ⟨fun _ _ => hall, fun _ => hall⟩

/-- A loop over a list that never breaks off keeps what each of its rounds keeps. -/
theorem yields_forIn {α : Type} {xs : List α} {f : α → PUnit → Parser (ForInStep PUnit)}
    {Q : PUnit → State → Prop} (I : State → Prop)
    (hf : ∀ x t, I t → Yields (f x ⟨⟩) (fun r u => r = .yield ⟨⟩ ∧ I u) t) (h : I s)
    (k : ∀ t, I t → Q ⟨⟩ t) : Yields (forIn xs PUnit.unit f) Q s := by
  induction xs generalizing s with
  | nil =>
    simp only [List.forIn_nil, yields_steps]
    exact k s h
  | cons x xs ih =>
    simp only [List.forIn_cons, yields_steps]
    refine (hf x s h).mono ?_
    rintro _ u ⟨rfl, hu⟩
    exact ih hu

/-- The place of a name in a specifier, as a node. -/
def TransferName.node (name : TransferName) : Node :=
  .reference name.token.span name.name

/-- A name in a specifier is a token alone, which may make up a node. -/
theorem transferName_run {Q : TransferName → State → Prop} (h : Laid source lo m s ns)
    (k : ∀ name t, Laid source lo true t ns →
      (∀ n : Node, n.span = name.token.span → n.children = [] → isPlain n = true →
        Laid source lo true t (ns ++ [n])) → Q name t) : Yields transferName Q s := by
  have hnext (hsolid : s.token.lexeme.isSolid = true) (name : String) (quoted : Bool) :
      Q ⟨s.token, name, quoted⟩ s.next :=
    k _ _ (h.next hsolid) fun n hspan hchildren hn =>
      h.append (h.placed.leaf hsolid hspan hchildren hn)
  simp only [transferName, yields_steps]
  split
  · rename_i name escaped hl
    simp only [yields_steps]
    exact hnext (isSolid_of_eq hl rfl) name false
  · rename_i value hl
    simp only [yields_steps]
    exact hnext (isSolid_of_eq hl rfl) value true
  · simp only [yields_steps]

theorem transferName_emits : Emits source true transferName fun name => [name.node] :=
  fun _ _ _ _ h => transferName_run h fun _ _ _ hnode => hnode _ rfl rfl rfl

theorem transferName_passes : Passes source true transferName :=
  fun _ _ _ _ h => transferName_run h fun _ _ ht _ => ht

theorem steady_seesTransferName : Steady seesTransferName := by
  intro s
  simp only [seesTransferName, yields_steps]
  split <;> simp only [yields_steps]

theorem transferSpecifier_emits :
    Emits source true transferSpecifier fun specifier => [specifier.first.node] := by
  intro s lo m ns h
  simp -zeta only [transferSpecifier]
  extract_lets renamed marked
  have hrenamed (typeOnly : Bool) (first : TransferName) (t : State)
      (ht : Laid source lo true t (ns ++ [first.node])) :
      Yields (renamed typeOnly first)
        (fun specifier u => Laid source lo (true || m) u (ns ++ [specifier.first.node])) t := by
    simp only [renamed, yields_steps, yields_eat]
    refine ⟨fun hx => ?_, fun _ => ht⟩
    refine transferName_passes.run (ht.eat hx) fun second u hu => ?_
    simp only [yields_steps]
    exact hu
  have hmarked (t : State) (ht : Laid source lo true t ns) :
      Yields (marked ())
        (fun specifier u => Laid source lo (true || m) u (ns ++ [specifier.first.node])) t := by
    simp only [marked, yields_steps]
    clear_value renamed
    refine transferName_emits.run ht fun first u hu => ?_
    simp only [yields_steps]
    exact hrenamed true first u hu
  clear_value renamed marked
  simp -zeta only [yields_steps]
  refine transferName_emits.run h fun name t ht => ?_
  simp -zeta only [yields_steps]
  refine ⟨fun _ => hrenamed false name t ht, fun _ => ⟨fun _ => ?_, fun _ => ?_⟩⟩
  · refine transferName_emits.run ht fun as₁ u hu => ?_
    have hfirst : Laid source lo true u (ns ++ [name.node]) :=
      hu.sublist (List.sublist_append_left _ _)
    have hsecond : Laid source lo true u (ns ++ [as₁.node]) := hu.sublist (by simp)
    simp only [yields_steps]
    refine ⟨fun _ => ?_, fun _ => ?_⟩
    · refine transferName_passes.run hu fun as₂ v hv => ?_
      have hfirst : Laid source lo true v (ns ++ [name.node]) :=
        hv.sublist (List.sublist_append_left _ _)
      have hsecond : Laid source lo true v (ns ++ [as₁.node]) := hv.sublist (by simp)
      simp only [yields_steps]
      refine steady_seesTransferName.run fun b => ?_
      simp only [yields_steps]
      refine ⟨fun _ => ?_, fun _ => hfirst⟩
      refine transferName_passes.run hsecond fun second w hw => ?_
      simp only [yields_steps]
      exact hw
    · refine steady_seesTransferName.run fun b => ?_
      simp only [yields_steps]
      refine ⟨fun _ => ?_, fun _ => hsecond⟩
      refine transferName_passes.run hfirst fun second w hw => ?_
      simp only [yields_steps]
      exact hw
  · refine steady_seesTransferName.run fun b => ?_
    have hdrop : Laid source lo true t ns := ht.sublist (List.sublist_append_left _ _)
    simp only [yields_steps]
    exact ⟨fun _ => ⟨fun _ => hmarked _ hdrop, fun _ => hmarked t hdrop⟩, fun _ => ht⟩

theorem moduleSource_emits :
    Emits source true moduleSource fun name => [.string name.1 name.2] := by
  intro s lo m ns h
  simp only [moduleSource, yields_steps]
  split
  · rename_i value hl
    simp only [yields_steps]
    exact h.append (h.placed.leaf (isSolid_of_eq hl rfl) rfl rfl rfl)
  · simp only [yields_steps]

theorem importAttribute_emits : Emits source true importAttribute fun ns => ns := by
  intro s lo m ns h
  simp only [importAttribute, yields_steps]
  refine transferName_run h fun key t ht hkey => ?_
  simp only [yields_steps]
  intro hcolon
  have hname : Laid source lo true t
      (ns ++ if key.quoted then [Node.string key.token.span key.name] else []) := by
    split
    · exact hkey _ rfl rfl rfl
    · simpa using ht
  refine moduleSource_emits.run (hname.eat hcolon) fun value u hu => ?_
  simp only [yields_steps]
  simpa using hu

/-- Whether the node is a string. -/
def IsString (n : Node) : Prop :=
  ∃ span value, n = .string span value

theorem importAttribute_strings : Yields importAttribute (fun part _ => ∀ p ∈ part, IsString p) s := by
  simp only [importAttribute, yields_steps]
  intro key t _
  simp only [yields_steps]
  intro _ value u _
  simp only [yields_steps]
  intro p hp
  rcases List.mem_append.mp hp with hp | hp
  · split at hp
    · exact ⟨_, _, List.mem_singleton.mp hp⟩
    · cases hp
  · exact ⟨_, _, List.mem_singleton.mp hp⟩

/-- The attributes of an import are strings. -/
theorem importAttributes_run {Q : List Node → State → Prop} (h : Laid source lo true s ns)
    (k : ∀ parts t, Laid source lo true t (ns ++ parts) → (∀ p ∈ parts, IsString p) → Q parts t) :
    Yields importAttributes Q s := by
  simp only [importAttributes, yields_steps]
  refine ⟨fun hx => ⟨fun _ => k [] s (by simpa using h) (by simp), fun _ hopen => ?_⟩,
    fun _ => k [] s (by simpa using h) (by simp)⟩
  have hwith : s.token.is "with" = true ∨ s.token.is "assert" = true := by
    simp only [Bool.or_eq_true, Bool.and_eq_true] at hx
    exact hx.imp id And.left
  have hstart : Laid source lo true s.next ns := hwith.elim h.eat h.eat
  refine (Yields.and (yields_separated (f := fun part => part) (by decide) (fun t ns ht => ?_)
    (hstart.eat hopen) fun parts t ht => ht) (separated_forall fun t => importAttribute_strings)).mono
    fun parts t ht => ?_
  · exact importAttribute_emits.run ht fun _ _ hu => .inl hu
  · simp only [yields_steps]
    intro hclose
    obtain ⟨hparts, hall⟩ := ht
    rw [List.flatMap_id'] at hparts
    refine k _ _ (hparts.eat hclose) fun p hp => ?_
    obtain ⟨part, hpart, hp⟩ := List.mem_flatten.mp hp
    exact hall part hpart p hp

/-- The declaration that an import makes up. -/
theorem Laid.importDecl {decl : ImportDeclaration} {parts : List Node}
    (h : Laid source lo true s parts) (hspan : decl.span = ⟨lo, s.lastStop⟩)
    (hparts : ∀ p ∈ parts, IsString p) :
    Done source lo (.importDecl decl parts) s := by
  refine h.build hspan rfl ⟨?_, hparts⟩
  rw [hspan]
  exact h.trail.2.2.1

theorem importSpecifier_passes : Passes source true importSpecifier := by
  intro s lo m ns h
  simp only [importSpecifier, yields_steps]
  refine transferSpecifier_emits.run h fun specifier t ht => ?_
  simp only [yields_steps]
  exact ⟨fun _ => trivial, fun _ => ht.sublist (List.sublist_append_left _ _)⟩

theorem steady_seesTypeImport : Yields seesTypeImport
    (fun b t => t = s ∧ (b = true → s.token.is "type" = true)) s := by
  simp only [seesTypeImport, yields_steps]
  refine ⟨fun _ => ⟨trivial, nofun⟩, fun hx => ?_⟩
  exact (steady_ahead _).run fun b => ⟨rfl, fun _ => by simpa using hx⟩

theorem steady_seesPhase : Yields seesPhase
    (fun b t => t = s ∧ (b = true → s.token.lexeme.isSolid = true)) s := by
  simp only [seesPhase, yields_steps]
  refine ⟨fun hx => ⟨trivial, fun _ => isSolid_of_is hx⟩, fun _ => ⟨fun hx => ?_, fun _ =>
    ⟨trivial, nofun⟩⟩⟩
  exact (steady_ahead _).run fun b => ⟨rfl, fun _ => isSolid_of_is hx⟩

theorem importedNames_passes : Passes source true importedNames := by
  intro s lo m ns h
  simp only [importedNames, yields_steps, yields_eat]
  refine ⟨fun hstar has => ?_, fun _ hopen => ?_⟩
  · refine bindingName_passes.run ((h.eat hstar).eat has) fun name t ht => ?_
    simp only [yields_steps]
    exact ht
  · refine yields_separated (f := fun _ => []) (by decide) (fun t ns ht => ?_) (h.eat hopen)
      fun names t ht => ?_
    · refine importSpecifier_passes.run ht fun _ u hu => .inl ?_
      simpa using hu
    · simp only [yields_steps]
      have hnil : (names.flatMap fun _ => ([] : List Node)) = [] := by simp
      rw [hnil, List.append_nil] at ht
      exact fun hclose => ht.eat hclose

theorem importRest_run (h : Laid source start true s []) :
    Yields (importRest start) (Done source start) s := by
  simp -zeta only [importRest]
  extract_lets finish
  have hfinish (typeOnly : Bool) (specifiers : Option (List ImportSpecifier)) (t : State)
      (ht : Laid source start true t []) :
      Yields (finish typeOnly specifiers) (Done source start) t := by
    simp only [finish, yields_steps]
    refine moduleSource_emits.run ht fun name u hu => ?_
    simp only [yields_steps]
    refine importAttributes_run hu fun parts v hv hstrings => ?_
    simp only [yields_steps]
    refine passes_terminator.run hv fun _ w hw => ?_
    simp only [yields_steps]
    refine hw.importDecl rfl (List.forall_mem_cons.mpr ⟨⟨_, _, rfl⟩, hstrings⟩)
  clear_value finish
  simp -zeta only [yields_steps]
  split
  · exact hfinish false none s h
  · simp -zeta only [yields_steps]
    refine steady_seesTypeImport.mono ?_
    rintro typeOnly _ ⟨rfl, htype⟩
    simp -zeta only [yields_steps]
    extract_lets names
    have hnames (t : State) (ht : Laid source start true t []) :
        Yields (names ()) (Done source start) t := by
      simp -zeta only [names, yields_steps]
      refine ⟨fun _ => ⟨fun _ => importEquals_run ht, fun _ => ?_⟩, fun _ => ?_⟩
      · refine bindingName_run ht fun name u hu _ => ?_
        simp -zeta only [yields_steps]
        extract_lets rest
        have hrest (more : List ImportSpecifier) (v : State) (hv : Laid source start true v []) :
            Yields (rest more) (Done source start) v := by
          simp only [rest, yields_steps]
          exact fun hx => hfinish _ _ _ (hv.eat hx)
        clear_value rest
        simp only [yields_steps, yields_eat]
        refine ⟨fun hx => ?_, fun _ => hrest [] u hu⟩
        refine importedNames_passes.run (hu.eat hx) fun more v hv => ?_
        simp only [yields_steps]
        exact hrest more v hv
      · refine importedNames_passes.run ht fun specifiers u hu => ?_
        simp only [yields_steps]
        exact fun hx => hfinish _ _ _ (hu.eat hx)
    clear_value names
    simp only [yields_steps]
    refine ⟨fun htrue => ?_, fun _ => ?_⟩
    · have hnext := h.eat (htype htrue)
      exact ⟨fun _ => hnames _ hnext, fun _ => hnames _ hnext⟩
    · refine steady_seesPhase.mono ?_
      rintro b _ ⟨rfl, hsolid⟩
      simp only [yields_steps]
      exact ⟨fun hb => hnames _ (h.next (hsolid hb)), fun _ => hnames _ h⟩

/-- An export of nodes that keep clear of the word `export`. -/
theorem Laid.exportNamed {names : List String} {declaration parts : List Node}
    (h : Laid source lo true s (declaration ++ parts)) (hle : lo ≤ start) (hlt : start < s.lastStop)
    (hopens : source.Opens start) (hclear : ∀ c ∈ declaration ++ parts, c.Clear start) :
    Done source lo (.exportNamed ⟨start, s.lastStop⟩ names declaration parts) s :=
  h.enclose hle hlt hopens rfl rfl ⟨⟨lo, h.trail.2.2.1⟩, hclear⟩

/-- An export of nodes that were read since the word `export`. -/
theorem Laid.exportParts {names : List String} {parts : List Node} (h : Laid source start true s parts) :
    Done source start (.exportNamed ⟨start, s.lastStop⟩ names [] parts) s := by
  obtain ⟨hlt, hopens, hrow, -⟩ := h.trail
  have hparts : Laid source start true s ([] ++ parts) := h
  exact hparts.exportNamed (Nat.le_refl _) hlt hopens
    fun c hc => (hrow.within c hc).clear (Nat.le_refl _)

theorem sublist_references (specifiers : List TransferSpecifier) :
    (specifiers.filterMap fun s =>
      if s.first.quoted then none else some (Node.reference s.first.token.span s.first.name)).Sublist
      (specifiers.map fun s => s.first.node) := by
  induction specifiers with
  | nil => exact .slnil
  | cons specifier specifiers ih =>
    rw [List.filterMap_cons, List.map_cons]
    split
    · exact ih.cons _
    · rename_i node hnode
      split at hnode
      · cases hnode
      · cases hnode
        exact ih.cons_cons _

theorem exportSpecifiers_run (h : Laid source start true s []) :
    Yields (exportSpecifiers start) (Done source start) s := by
  simp only [exportSpecifiers, yields_steps]
  intro hopen
  refine yields_separated (f := fun specifier => [specifier.first.node]) (by decide)
    (fun t ns ht => ?_) (h.eat hopen) fun specifiers t ht => ?_
  · exact transferSpecifier_emits.run ht fun _ _ hu => .inl hu
  simp only [yields_steps, yields_eat]
  intro hclose
  have hlaid := ht.eat hclose
  refine ⟨fun hfrom => ?_, fun _ => ?_⟩
  · have hnone := (hlaid.sublist (List.nil_sublist _)).eat hfrom
    refine moduleSource_emits.run hnone fun name u hu => ?_
    simp only [yields_steps]
    refine importAttributes_run hu fun parts v hv _ => ?_
    simp only [yields_steps]
    refine passes_terminator.run hv fun _ w hw => ?_
    simp only [yields_steps]
    exact hw.exportParts
  · rw [List.nil_append, ← List.map_eq_flatMap] at hlaid
    refine yields_forIn (fun u => Laid source start true u (specifiers.map _))
      (fun specifier u hu => ?_) hlaid fun u hu => ?_
    · simp only [yields_steps]
      exact ⟨fun _ => ⟨trivial, hu⟩, fun _ => ⟨trivial, hu⟩⟩
    · simp only [yields_steps]
      refine passes_terminator.run hu fun _ v hv => ?_
      simp only [yields_steps]
      exact (hv.sublist (sublist_references specifiers)).exportParts

theorem exportAll_run (h : Laid source start true s []) :
    Yields (exportAll start) (Done source start) s := by
  simp -zeta only [exportAll, yields_steps]
  intro hstar
  extract_lets rest
  have hrest (names : List String) (t : State) (ht : Laid source start true t []) :
      Yields (rest names) (Done source start) t := by
    simp only [rest, yields_steps]
    intro hfrom
    refine moduleSource_emits.run (ht.eat hfrom) fun name u hu => ?_
    simp only [yields_steps]
    refine importAttributes_run hu fun parts v hv _ => ?_
    simp only [yields_steps]
    refine passes_terminator.run hv fun _ w hw => ?_
    simp only [yields_steps]
    exact hw.exportParts
  clear_value rest
  simp only [yields_steps, yields_eat]
  refine ⟨fun hx => ?_, fun _ => hrest [] _ (h.eat hstar)⟩
  refine transferName_passes.run ((h.eat hstar).eat hx) fun name t ht => ?_
  simp only [yields_steps]
  exact hrest [name.name] t ht

/-- What is declared behind the word `export` keeps clear of it, decorators included. -/
theorem Declared.clear {first : Nat} (hmarks : Marked source lo start marks) (hle : start ≤ first)
    (h : Declared source lo first marks n s) : n.Clear start ∧ start < s.lastStop := by
  obtain ⟨-, hlt, hbehind⟩ := h
  refine ⟨fun c hc => ?_, Nat.lt_of_le_of_lt hle hlt⟩
  rcases hbehind c hc with ⟨d, hd, hc⟩ | hc
  · exact .inl (hmarks.row.within d hd c hc).2
  · exact .inr (Nat.le_trans hle hc)

/-- The decorators before the word `export` stand before what follows the word, too. -/
theorem Marked.past (hmarks : Marked source lo start marks) (h : Laid source start true s ns) :
    Marked source lo s.token.span.start marks := by
  have hle := h.le_start
  refine ⟨hmarks.row.mono (Nat.le_refl _) hle, hmarks.tidy, .inr ?_⟩
  rcases hmarks.opens with rfl | hopens
  · exact h.trail.2.1
  · exact hopens

theorem steady_seesDeclaration : Steady seesDeclaration :=
  steady_ahead _

section

variable (hg : Grammar.Sound source g)
include hg

theorem exportDefault_run (hmarks : Marked source lo start marks)
    (h : Laid source start true s []) :
    Yields (exportDefault g start marks) (Done source lo) s := by
  simp -zeta only [exportDefault, yields_steps]
  intro hdefault
  have hword := h.eat hdefault
  have hmarks' := hmarks.past hword
  have hfirst := hword.le_start
  extract_lets types finish
  have hfinish (value : Node) (t : State)
      (ht : Declared source lo s.next.token.span.start marks value t) :
      Yields (finish value) (Done source lo) t := by
    obtain ⟨hclear, hlt⟩ := ht.clear hmarks hfirst
    simp only [finish, yields_steps]
    exact ht.1.enclose hmarks.row.le hlt h.trail.2.1 rfl rfl ⟨⟨lo, ht.1.trail.2.2.1⟩, hclear⟩
  clear_value types finish
  simp -zeta only [yields_steps]
  refine (decorators_emits hg).run hword.placed.begin fun more t ht => ?_
  simp -zeta only [yields_steps]
  extract_lets all
  have hnone : Laid source s.next.token.span.start false t [] := ht.sublist (List.nil_sublist _)
  simp only [yields_steps]
  refine seesAsyncFunction_run fun isAsync hasync => ?_
  simp only [yields_steps]
  refine ⟨fun _ => ?_, fun _ => ⟨fun hx => ?_, fun _ => ⟨fun _ => ?_, fun _ => ⟨fun hx => ?_,
    fun _ => ⟨fun _ => ?_, fun _ => ?_⟩⟩⟩⟩⟩
  · refine (classFrom_run hg hmarks' ht).mono fun value u hu => ?_
    simp only [yields_steps]
    exact hfinish value u hu
  · simp only [Bool.and_eq_true] at hx
    refine (classFrom_run hg hmarks' (ht.eat hx.1.2)).mono fun value u hu => ?_
    simp only [yields_steps]
    exact hfinish value u hu
  · refine (functionFrom_run hg _ _ hnone).mono fun value u hu => ?_
    simp only [yields_steps]
    exact hfinish value u (hmarks'.declared hu)
  · refine (functionFrom_run hg _ _ (hnone.eat (hasync hx))).mono fun value u hu => ?_
    simp only [yields_steps]
    exact hfinish value u (hmarks'.declared hu)
  · refine (interface_run hg hnone).mono fun value u hu => ?_
    simp only [yields_steps]
    exact hfinish value u (hmarks'.declared hu)
  · refine ((hg.assignment true).within _).push hnone fun e u hu => ?_
    simp only [yields_steps]
    refine passes_terminator.run hu fun _ v hv => ?_
    simp only [yields_steps]
    exact hfinish e v (hmarks'.declared hv)

/-- An export with the decorators that stand before it. -/
theorem exportDeclaration_run (h : Laid source lo m s marks) :
    Yields (exportDeclaration g s.token.span.start marks) (Done source lo) s := by
  simp -zeta only [exportDeclaration, yields_steps]
  intro hexport
  have hmarks := h.marked
  have hword := h.placed.begin.eat hexport
  have hmarks' := hmarks.past hword
  have plain {p : Parser Node} {t : State} (hp : Yields p (Done source s.token.span.start) t) :
      Yields p (Done source lo) t :=
    hp.mono fun _ _ hn => (hmarks.declared hn).1
  extract_lets types finish
  have hfinish (d : Node) (t : State)
      (ht : Declared source lo s.next.token.span.start marks d t) :
      Yields (finish d) (Done source lo) t := by
    obtain ⟨hclear, hlt⟩ := ht.clear hmarks hword.le_start
    simp only [finish, yields_steps]
    exact Laid.exportNamed ht.1 hmarks.row.le hlt hword.trail.2.1 (by simpa using hclear)
  clear_value types finish
  simp -zeta only [yields_steps]
  refine ⟨fun _ => exportDefault_run hg hmarks hword, fun _ => ⟨fun _ => plain (exportAll_run hword),
    fun _ => ⟨fun _ => plain (exportSpecifiers_run hword), fun _ => ⟨fun hx => ?_, fun _ =>
      ⟨fun hx => ?_, fun _ => ⟨fun hx => ?_, fun _ => ⟨fun hx => ?_, fun _ => ?_⟩⟩⟩⟩⟩⟩⟩
  · rw [Bool.and_eq_true] at hx
    refine hg.expression.push (hword.eat hx.2) fun e t ht => ?_
    simp only [yields_steps]
    refine passes_terminator.run ht fun _ u hu => ?_
    simp only [yields_steps]
    exact (hmarks.declared (hu.plain rfl rfl rfl)).1
  · simp only [Bool.and_eq_true] at hx
    refine bindingName_passes.run ((hword.eat hx.1.2).eat hx.2) fun _ t ht => ?_
    simp only [yields_steps]
    refine passes_terminator.run ht fun _ u hu => ?_
    simp only [yields_steps]
    exact (hmarks.declared (hu.plain rfl rfl rfl)).1
  · simp only [Bool.and_eq_true] at hx
    have htype := hword.eat hx.1.2
    exact ⟨fun _ => plain (exportSpecifiers_run htype), fun _ => plain (exportAll_run htype)⟩
  · rw [Bool.and_eq_true] at hx
    have himport := hword.eat hx.2
    have hequals (t : State) (ht : Laid source s.next.next.token.span.start false t []) :
        Yields (do
          let d ← importEquals s.next.next.token.span.start
          let span ← spanFrom s.token.span.start
          pure (Node.exportNamed span [] [d] [])) (Done source lo) t := by
      simp only [yields_steps]
      refine (importEquals_run ht).mono fun d u hu => ?_
      have hexported : Laid source s.token.span.start true u ([d] ++ []) := himport.append hu
      obtain ⟨hlt, hopens, hrow, -⟩ := hexported.trail
      simp only [yields_steps]
      refine (hmarks.declared (Laid.exportNamed hexported (Nat.le_refl _) hlt hopens ?_)).1
      exact fun c hc => (hrow.within c hc).clear (Nat.le_refl _)
    simp only [yields_steps] at hequals ⊢
    refine ⟨fun hx => hequals _ ?_, fun _ => hequals _ himport.placed.begin⟩
    rw [Bool.and_eq_true] at hx
    exact (himport.placed.begin.eat hx.1).weaken
  · refine (decorators_emits hg).run hword.placed.begin fun more t ht => ?_
    have hnone : Laid source s.next.token.span.start false t [] := ht.sublist (List.nil_sublist _)
    simp only [yields_steps]
    refine seesAsyncFunction_run fun isAsync hasync => ?_
    simp only [yields_steps]
    refine steady_seesDeclaration.run fun declares => ?_
    simp only [yields_steps]
    refine ⟨fun _ => ?_, fun _ => ⟨fun _ => ?_, fun _ => ⟨fun hx => ?_, fun _ => ⟨fun _ => ?_,
      fun _ => ⟨fun hx => ?_, fun _ => trivial⟩⟩⟩⟩⟩
    · refine (classFrom_run hg hmarks' ht).mono fun d u hu => ?_
      simp only [yields_steps]
      exact hfinish d u hu
    · refine (functionFrom_run hg _ _ hnone).mono fun d u hu => ?_
      simp only [yields_steps]
      exact hfinish d u (hmarks'.declared hu)
    · refine (functionFrom_run hg _ _ (hnone.eat (hasync hx))).mono fun d u hu => ?_
      simp only [yields_steps]
      exact hfinish d u (hmarks'.declared hu)
    · refine (declaration_run hg hmarks' ht).mono fun d u hu => ?_
      simp only [yields_steps]
      exact hfinish d u hu
    · refine (bindings_run hg hnone (isSolid_of_isAny hx)).mono fun d u hu => ?_
      simp only [yields_steps]
      exact hfinish d u (hmarks'.declared hu)

end

end Parser

end Codemod
