import Codemod.Proofs.Pass.Lossless

/-!
# Codemod.Proofs.Pass.UiImports.Distribution

Where the names go that the import pass moves.

`Distribution` says it without the pass: the nodes `Api.symbol` by their addresses, the references
that keep the default import alive, what each import is left with, and the one import of the base
package that takes the names that move. `patch_distributes` says that a patch is that.

* `foundAt?_symbol_iff`, `foundAt?_kept_iff`: the walk over the module finds exactly those nodes.
* `takes_bindAll`: names are added to a clause once, and only where they are not bound.
* `apiEdits_above`: a new import is carried by one edit.
-/

namespace Codemod

namespace UiImports

section Uses

/-- `main.name`, as an expression or where a type is named, for a name of the user interface
layer. -/
def IsSymbol (main name : String) (n : Node) : Prop :=
  name ∈ uiSymbols ∧ ∃ s t, n = .member s (.reference t main) name ∨
    n = .qualified s (.reference t main) name

variable {main name : String} {n m : Node} {a : Address} {s : Span}

theorem not_isSymbol_reference {t : Span} {x : String} : ¬ IsSymbol main name (.reference t x) := by
  rintro ⟨-, _, _, h | h⟩ <;> cases h

theorem IsSymbol.unique {other : String} (h : IsSymbol main name n) (h' : IsSymbol main other n) :
    name = other := by
  obtain ⟨-, s, t, rfl | rfl⟩ := h <;> obtain ⟨-, _, _, h | h⟩ := h' <;> cases h <;> rfl

/-- The visitor notes `main.name` and references to `main`, and stops at every reference. -/
theorem visitUses_cases (main : String) (n : Node) :
    (∃ name, IsSymbol main name n ∧ visitUses main () n = ([.symbol n.span name], none)) ∨
    (∃ s x, n = .reference s x ∧
      visitUses main () n = (if x == main then [.kept] else [], none)) ∨
    (∀ name, ¬ IsSymbol main name n) ∧ (∀ s x, n ≠ .reference s x) ∧
      visitUses main () n = ([], some ()) := by
  have hui {x name : String} (h : (x == main && uiSymbols.contains name) = true) :
      x = main ∧ name ∈ uiSymbols := by
    rwa [Bool.and_eq_true, beq_iff_eq, List.contains_iff_mem] at h
  unfold visitUses
  split
  · rename_i s t x name
    split
    · rename_i h
      obtain ⟨rfl, hname⟩ := hui h
      exact .inl ⟨name, ⟨hname, s, t, .inl rfl⟩, rfl⟩
    · rename_i h
      refine .inr (.inr ⟨?_, nofun, rfl⟩)
      rintro name' ⟨hname, _, _, heq | heq⟩ <;> cases heq
      exact h (by simp [hname])
  · rename_i s t x name
    split
    · rename_i h
      obtain ⟨rfl, hname⟩ := hui h
      exact .inl ⟨name, ⟨hname, s, t, .inr rfl⟩, rfl⟩
    · rename_i h
      refine .inr (.inr ⟨?_, nofun, rfl⟩)
      rintro name' ⟨hname, _, _, heq | heq⟩ <;> cases heq
      exact h (by simp [hname])
  · exact .inr (.inl ⟨_, _, rfl, rfl⟩)
  · rename_i hmember hqualified hreference
    refine .inr (.inr ⟨?_, fun s x => hreference s x, rfl⟩)
    rintro name ⟨-, s, t, rfl | rfl⟩
    · exact hmember _ _ _ _ rfl
    · exact hqualified _ _ _ _ rfl

theorem length_visitUses (main : String) (n : Node) : (visitUses main () n).1.length ≤ 1 := by
  rcases visitUses_stops main n with h | h
  · simp [h]
  · exact h.2

/-- Below `main.name` there is only the reference to `main`. -/
theorem IsSymbol.at?_cons (h : IsSymbol main name n) {i : Nat} (hm : n.at? (i :: a) = some m) :
    ∃ t, m = .reference t main := by
  obtain ⟨t, hchildren⟩ : ∃ t, n.children = [.reference t main] := by
    obtain ⟨-, s, t, rfl | rfl⟩ := h <;> exact ⟨t, rfl⟩
  rw [Node.at?, hchildren] at hm
  obtain ⟨c, hc, hm⟩ := Option.bind_eq_some_iff.mp hm
  rw [List.mem_singleton.mp (List.mem_of_getElem? hc)] at hm
  cases a with
  | nil =>
    cases hm
    exact ⟨t, rfl⟩
  | cons j a => cases hm

/-- The walk finds `main.name` wherever it stands. -/
theorem foundAt?_symbol_iff : Node.foundAt? (visitUses main) n a = some (.symbol s name) ↔
    ∃ m, n.at? a = some m ∧ IsSymbol main name m ∧ m.span = s := by
  induction a generalizing n with
  | nil =>
    rw [Node.foundAt?, Node.at?]
    rcases visitUses_cases main n with ⟨other, hsymbol, heq⟩ | ⟨t, x, rfl, heq⟩ | ⟨hnone, -, heq⟩
    · rw [heq]
      constructor
      · intro h
        cases h
        exact ⟨n, rfl, hsymbol, rfl⟩
      · rintro ⟨m, hm, hm', rfl⟩
        cases hm
        rw [hsymbol.unique hm']
        rfl
    · rw [heq]
      constructor
      · intro h
        split at h <;> cases h
      · rintro ⟨m, hm, hm', -⟩
        cases hm
        exact absurd hm' not_isSymbol_reference
    · rw [heq]
      constructor
      · intro h
        cases h
      · rintro ⟨m, hm, hm', -⟩
        cases hm
        exact absurd hm' (hnone name)
  | cons i a ih =>
    rw [Node.foundAt?]
    rcases visitUses_cases main n with ⟨other, hsymbol, heq⟩ | ⟨t, x, rfl, heq⟩ | ⟨-, -, heq⟩
    · rw [heq]
      constructor
      · intro h
        cases h
      · rintro ⟨m, hm, hm', -⟩
        obtain ⟨t, rfl⟩ := hsymbol.at?_cons hm
        exact absurd hm' not_isSymbol_reference
    · rw [heq]
      constructor
      · intro h
        cases h
      · rintro ⟨m, hm, -⟩
        cases hm
    · rw [heq, Node.at?]
      cases n.children[i]? with
      | none => simp
      | some c => exact ih

/-- The walk finds the references to `main` that are not part of a `main.name`. -/
theorem foundAt?_kept_iff : Node.foundAt? (visitUses main) n a = some .kept ↔
    (∃ s, n.at? a = some (.reference s main)) ∧
      ∀ b m, b <+: a → n.at? b = some m → ∀ name, ¬ IsSymbol main name m := by
  induction a generalizing n with
  | nil =>
    rw [Node.foundAt?, Node.at?]
    rcases visitUses_cases main n with ⟨other, hsymbol, heq⟩ | ⟨t, x, rfl, heq⟩ | ⟨-, href, heq⟩
    · rw [heq]
      constructor
      · intro h
        cases h
      · rintro ⟨⟨s, hs⟩, -⟩
        cases hs
        exact absurd hsymbol not_isSymbol_reference
    · rw [heq]
      constructor
      · intro h
        split at h
        · rename_i hx
          refine ⟨⟨t, by rw [beq_iff_eq.mp hx]⟩, fun b m hb hm name => ?_⟩
          rw [List.prefix_nil.mp hb] at hm
          cases hm
          exact not_isSymbol_reference
        · cases h
      · rintro ⟨⟨s, hs⟩, -⟩
        cases hs
        simp
    · rw [heq]
      constructor
      · intro h
        cases h
      · rintro ⟨⟨s, hs⟩, -⟩
        cases hs
        exact absurd rfl (href _ _)
  | cons i a ih =>
    rw [Node.foundAt?]
    rcases visitUses_cases main n with ⟨other, hsymbol, heq⟩ | ⟨t, x, rfl, heq⟩ | ⟨hnone, -, heq⟩
    · rw [heq]
      constructor
      · intro h
        cases h
      · rintro ⟨-, hclear⟩
        exact absurd hsymbol (hclear [] n (List.nil_prefix) rfl other)
    · rw [heq]
      constructor
      · intro h
        cases h
      · rintro ⟨⟨s, hs⟩, -⟩
        cases hs
    · rw [heq, Node.at?]
      cases hc : n.children[i]? with
      | none => simp
      | some c =>
        refine (ih (n := c)).trans (and_congr_right fun _ => ?_)
        constructor
        · intro hclear b m hb hm
          cases b with
          | nil =>
            cases hm
            exact hnone
          | cons j b =>
            obtain ⟨rfl, hbelow⟩ := List.cons_prefix_cons.mp hb
            rw [Node.at?, hc] at hm
            exact hclear b m hbelow hm
        · intro hclear b m hb hm
          refine hclear (i :: b) m (List.cons_prefix_cons.mpr ⟨rfl, hb⟩) ?_
          rw [Node.at?, hc]
          exact hm

end Uses

section Module

/-- The name under which the first import of the API package with a clause and a default binds the
package. -/
def boundName? (p : Program) : Option String :=
  (p.importsFrom apiPackage).findSome? fun decl =>
    (ImportClause.ofDeclaration? decl).bind fun _ =>
      (decl.specifiers.getD []).findSome? fun
        | .main _ name => some name
        | _ => none

/-- A default name is written in the text as it is, without escapes. -/
def WrittenAs (source : Text) : ImportSpecifier → Prop
  | .main span name => String.ofList (span.text source) = name
  | _ => True

instance (source : Text) : DecidablePred (WrittenAs source)
  | .main _ _ => inferInstanceAs (Decidable (_ = _))
  | .all _ | .named _ _ _ => isTrue trivial

/-- So are all default names of the API package. -/
def PlainlyBound (script : Script) : Prop :=
  ∀ decl ∈ script.program.importsFrom apiPackage, ∀ specifier ∈ decl.specifiers.getD [],
    WrittenAs script.source specifier

instance (script : Script) : Decidable (PlainlyBound script) :=
  inferInstanceAs (Decidable (∀ decl ∈ _, ∀ specifier ∈ _, WrittenAs script.source specifier))

/-- `Api.name` stands at the address, for a name of the user interface layer. -/
def SymbolAt (p : Program) (name : String) (a : Address) : Prop :=
  ∃ main m, boundName? p = some main ∧ p.at? a = some m ∧ IsSymbol main name m

/-- A reference to the API package stands at the address, and not as a part of such an
`Api.name`. -/
def RefersAt (p : Program) (a : Address) : Prop :=
  ∃ main s, boundName? p = some main ∧ p.at? a = some (.reference s main) ∧
    ∀ b, b <+: a → ∀ name, ¬ SymbolAt p name b

theorem mainName?_eq {script : Script} (h : PlainlyBound script) :
    mainName? script = boundName? script.program := by
  refine findSome?_congr fun decl hdecl => ?_
  cases ImportClause.ofDeclaration? decl with
  | none => rfl
  | some _ =>
    refine findSome?_congr fun specifier hmem => ?_
    cases specifier with
    | main span name => exact congrArg some (h decl hdecl _ hmem)
    | _ => rfl

variable {p : Program} {main name : String} {a : Address} {s : Span}

/-- The use of the API package at an address. -/
def useAt? (p : Program) (a : Address) : Option Use :=
  (boundName? p).bind fun main => p.foundAt? (visitUses main) a

theorem uses_eq {script : Script} (h : PlainlyBound script) :
    uses script = script.program.addresses.filterMap (useAt? script.program) := by
  rw [uses, mainName?_eq h]
  unfold useAt?
  cases boundName? script.program with
  | none => simp
  | some main => exact Program.gather_eq_filterMap _ (length_visitUses main) script.program

theorem useAt?_symbol_iff : useAt? p a = some (.symbol s name) ↔
    ∃ main m, boundName? p = some main ∧ p.at? a = some m ∧ IsSymbol main name m ∧ m.span = s := by
  rw [useAt?, Option.bind_eq_some_iff]
  refine exists_congr fun main => ?_
  rw [exists_and_left]
  refine and_congr_right fun _ => ?_
  cases a with
  | nil => simp [Program.foundAt?, Program.at?]
  | cons i a =>
    rw [Program.foundAt?, Program.at?]
    cases p.nodes[i]? with
    | none => simp
    | some n => exact foundAt?_symbol_iff

theorem symbolAt_iff : SymbolAt p name a ↔ ∃ s, useAt? p a = some (.symbol s name) := by
  constructor
  · rintro ⟨main, m, hmain, hm, hsymbol⟩
    exact ⟨m.span, useAt?_symbol_iff.mpr ⟨main, m, hmain, hm, hsymbol, rfl⟩⟩
  · rintro ⟨s, h⟩
    obtain ⟨main, m, hmain, hm, hsymbol, -⟩ := useAt?_symbol_iff.mp h
    exact ⟨main, m, hmain, hm, hsymbol⟩

theorem refersAt_iff : RefersAt p a ↔ useAt? p a = some .kept := by
  rw [useAt?, Option.bind_eq_some_iff]
  constructor
  · rintro ⟨main, s, hmain, hs, hclear⟩
    refine ⟨main, hmain, ?_⟩
    cases a with
    | nil => cases hs
    | cons i a =>
      obtain ⟨n, hn, hs⟩ := Option.bind_eq_some_iff.mp hs
      rw [Program.foundAt?, hn]
      refine foundAt?_kept_iff.mpr ⟨⟨s, hs⟩, fun b m hb hm name hsymbol => ?_⟩
      refine hclear (i :: b) (List.cons_prefix_cons.mpr ⟨rfl, hb⟩) name ⟨main, m, hmain, ?_, hsymbol⟩
      rw [Program.at?, hn]
      exact hm
  · rintro ⟨main, hmain, hfound⟩
    cases a with
    | nil => cases hfound
    | cons i a =>
      obtain ⟨n, hn, hfound⟩ := Option.bind_eq_some_iff.mp hfound
      obtain ⟨⟨s, hs⟩, hclear⟩ := foundAt?_kept_iff.mp hfound
      refine ⟨main, s, hmain, ?_, ?_⟩
      · rw [Program.at?, hn]
        exact hs
      · rintro b hb name ⟨main', m, hmain', hm, hsymbol⟩
        rw [hmain] at hmain'
        cases hmain'
        cases b with
        | nil => cases hm
        | cons j b =>
          obtain ⟨rfl, hbelow⟩ := List.cons_prefix_cons.mp hb
          rw [Program.at?, hn] at hm
          exact hclear b m hbelow hm name hsymbol

theorem isSome_at?_of_useAt? {u : Use} (h : useAt? p a = some u) : (p.at? a).isSome := by
  cases u with
  | symbol s name =>
    obtain ⟨-, m, -, hm, -⟩ := useAt?_symbol_iff.mp h
    rw [hm]
    rfl
  | kept =>
    obtain ⟨_, s, -, hs, -⟩ := refersAt_iff.mpr h
    rw [hs]
    rfl

theorem mem_uses_iff {script : Script} (h : PlainlyBound script) {u : Use} :
    u ∈ uses script ↔ ∃ a, useAt? script.program a = some u := by
  rw [uses_eq h, List.mem_filterMap]
  refine exists_congr fun a => and_iff_right_of_imp fun ha => ?_
  exact Program.mem_addresses.mpr (isSome_at?_of_useAt? ha)

/-- The default of the API package stays exactly if something else refers to it. -/
theorem keepsMain_iff {script : Script} (h : PlainlyBound script) :
    keepsMain (uses script) = true ↔ ∃ a, RefersAt script.program a := by
  rw [keepsMain, List.any_eq_true]
  constructor
  · rintro ⟨u, hu, hkept⟩
    cases u with
    | symbol s name => cases hkept
    | kept =>
      obtain ⟨a, ha⟩ := (mem_uses_iff h).mp hu
      exact ⟨a, refersAt_iff.mpr ha⟩
  · rintro ⟨a, ha⟩
    exact ⟨.kept, (mem_uses_iff h).mpr ⟨a, refersAt_iff.mp ha⟩, rfl⟩

/-- The edit that a use comes to. -/
def Use.edit? : Use → Option Edit
  | symbol span name => some (.replace span name.toList)
  | kept => none

theorem memberEdits_eq (us : List Use) : memberEdits us = us.filterMap Use.edit? := by
  refine List.filterMap_congr fun u _ => ?_
  cases u <;> rfl

/-- The edits of `Api.name`, with the addresses they are for. -/
theorem exists_sites {script : Script} (h : PlainlyBound script) : ∃ sites : List Address,
    Lists sites (fun a => ∃ name, SymbolAt script.program name a) ∧
    List.Forall₂ (fun a e => ∃ name m, SymbolAt script.program name a ∧
      script.program.at? a = some m ∧ e = .replace m.span name.toList)
      sites (memberEdits (uses script)) := by
  let edit? (a : Address) : Option Edit := (useAt? script.program a).bind Use.edit?
  have hedit {a : Address} {e : Edit} : edit? a = some e ↔ ∃ name m, SymbolAt script.program name a ∧
      script.program.at? a = some m ∧ e = .replace m.span name.toList := by
    rw [Option.bind_eq_some_iff]
    constructor
    · rintro ⟨u, hu, he⟩
      cases u with
      | kept => cases he
      | symbol s name =>
        cases he
        obtain ⟨main, m, hmain, hm, hsymbol, rfl⟩ := useAt?_symbol_iff.mp hu
        exact ⟨name, m, ⟨main, m, hmain, hm, hsymbol⟩, hm, rfl⟩
    · rintro ⟨name, m, ⟨main, m', hmain, hm', hsymbol⟩, hm, rfl⟩
      rw [hm] at hm'
      cases hm'
      exact ⟨_, useAt?_symbol_iff.mpr ⟨main, m, hmain, hm, hsymbol, rfl⟩, rfl⟩
  refine ⟨script.program.addresses.filter fun a => (edit? a).isSome, ?_, ?_⟩
  · refine lists_isSome (fun a => ?_) fun a ⟨name, main, m, _, hm, _⟩ => by rw [hm]; rfl
    rw [Option.isSome_iff_exists]
    constructor
    · rintro ⟨e, he⟩
      obtain ⟨name, -, hsymbol, -⟩ := hedit.mp he
      exact ⟨name, hsymbol⟩
    · rintro ⟨name, hsymbol⟩
      obtain ⟨-, m, -, hm, -⟩ := id hsymbol
      exact ⟨_, hedit.mpr ⟨name, m, hsymbol, hm, rfl⟩⟩
  · rw [memberEdits_eq, uses_eq h, List.filterMap_filterMap]
    exact (forall₂_filterMap edit? script.program.addresses).imp fun a e => hedit.mp

/-- The names that are read through the API package, each once. -/
theorem memberSymbols_spec (us : List Use) : (memberSymbols us).Nodup ∧
    ∀ name, name ∈ memberSymbols us ↔ ∃ s, .symbol s name ∈ us := by
  have key (us : List Use) (names : List String) (hnames : names.Nodup) :
      let all := us.foldl (fun names u =>
        match u with
        | .symbol _ name => if names.contains name then names else names ++ [name]
        | .kept => names) names
      all.Nodup ∧ ∀ name, name ∈ all ↔ name ∈ names ∨ ∃ s, .symbol s name ∈ us := by
    induction us generalizing names with
    | nil => simpa using hnames
    | cons u us ih =>
      rw [List.foldl_cons]
      cases u with
      | kept => simpa using ih names hnames
      | symbol s new =>
        dsimp only
        split
        · rename_i hknown
          rw [List.contains_iff_mem] at hknown
          refine ⟨(ih names hnames).1, fun name => ?_⟩
          rw [(ih names hnames).2]
          simp only [List.mem_cons, Use.symbol.injEq]
          grind
        · rename_i hknown
          rw [List.contains_iff_mem] at hknown
          have hnew : (names ++ [new]).Nodup := by
            rw [List.nodup_append]
            grind
          refine ⟨(ih _ hnew).1, fun name => ?_⟩
          rw [(ih _ hnew).2]
          simp only [List.mem_cons, List.mem_append, Use.symbol.injEq]
          grind
  obtain ⟨hnodup, hmem⟩ := key us [] List.nodup_nil
  exact ⟨hnodup, fun name => (hmem name).trans (by simp)⟩

/-- They are those that stand in some `Api.name`. -/
theorem mem_memberSymbols {script : Script} (h : PlainlyBound script) :
    (memberSymbols (uses script)).Nodup ∧
      ∀ name, name ∈ memberSymbols (uses script) ↔ ∃ a, SymbolAt script.program name a := by
  obtain ⟨hnodup, hmem⟩ := memberSymbols_spec (uses script)
  refine ⟨hnodup, fun name => (hmem name).trans ?_⟩
  simp only [mem_uses_iff h, symbolAt_iff]
  exact exists_comm

end Module

section Imports

/-- What an import of the API package is left with: the names that are not of the user interface
layer, in order and as they were, and its default if that is kept. -/
structure Leaves (keep : Bool) (c rest : ImportClause) : Prop where
  main : rest.main = if keep then c.main else none
  named : rest.named = c.named.filter fun n => n.imported ∉ uiSymbols
  source : rest.source = c.source

theorem leaves_remaining (keep : Bool) (c : ImportClause) : Leaves keep c (remaining keep c) := by
  refine ⟨rfl, List.filter_congr fun n _ => ?_, rfl⟩
  rw [isUi, List.contains_eq_mem, decide_not]

/-- A clause has taken names: those that it did not bind yet, each once and in order. -/
structure Takes (before : ImportClause) (moved : List NamedImport) (after : ImportClause) :
    Prop where
  main : after.main = before.main
  source : after.source = before.source
  named : ∃ fresh, after.named = before.named ++ fresh ∧ fresh.Sublist moved ∧
    (fresh.map (·.name)).Nodup ∧ ∀ n ∈ fresh, before.binds n.name = false
  binds : ∀ front n back, moved = front ++ n :: back →
    n ∈ after.named ∨ before.binds n.name = true ∨ ∃ m ∈ front, m.name = n.name

section Takes

variable {c after : ImportClause} {n : NamedImport} {moved : List NamedImport}

/-- A name that is bound is left out. -/
theorem Takes.skip (h : Takes c moved after) (hbound : c.binds n.name = true) :
    Takes c (n :: moved) after := by
  obtain ⟨hmain, hsource, ⟨fresh, hnamed, hsub, hnew⟩, hbinds⟩ := h
  refine ⟨hmain, hsource, ⟨fresh, hnamed, hsub.cons n, hnew⟩, fun front m back heq => ?_⟩
  cases front with
  | nil =>
    obtain ⟨rfl, -⟩ := List.cons.inj heq
    exact .inr (.inl hbound)
  | cons k front =>
    obtain ⟨-, hrest⟩ := List.cons.inj heq
    refine (hbinds front m back hrest).imp_right (Or.imp_right ?_)
    rintro ⟨k', hk', hname⟩
    exact ⟨k', List.mem_cons_of_mem _ hk', hname⟩

/-- A name that is not bound comes behind those that are there. -/
theorem Takes.push (h : Takes { c with named := c.named ++ [n] } moved after)
    (hbound : c.binds n.name = false) : Takes c (n :: moved) after := by
  have hold (name : String) : ImportClause.binds { c with named := c.named ++ [n] } name =
      (c.binds name || n.name == name) := by
    simp [ImportClause.binds, Bool.or_assoc]
  obtain ⟨hmain, hsource, ⟨fresh, hnamed, hsub, hnodup, hnew⟩, hbinds⟩ := h
  simp only [hold, Bool.or_eq_false_iff, beq_eq_false_iff_ne] at hnew
  refine ⟨hmain, hsource, ⟨n :: fresh, by simpa using hnamed, hsub.cons_cons n, ?_, ?_⟩, ?_⟩
  · rw [List.map_cons, List.nodup_cons, List.mem_map]
    refine ⟨?_, hnodup⟩
    rintro ⟨m, hm, hname⟩
    exact (hnew m hm).2 hname.symm
  · intro m hm
    rcases List.mem_cons.mp hm with rfl | hm
    · exact hbound
    · exact (hnew m hm).1
  · intro front m back heq
    cases front with
    | nil =>
      obtain ⟨rfl, -⟩ := List.cons.inj heq
      exact .inl (by rw [hnamed]; simp)
    | cons k front =>
      obtain ⟨rfl, hrest⟩ := List.cons.inj heq
      rcases hbinds front m back hrest with hm | hm | ⟨k', hk', hname⟩
      · exact .inl hm
      · rw [hold, Bool.or_eq_true, beq_iff_eq] at hm
        exact .inr (hm.imp_right fun hname => ⟨n, List.mem_cons_self, hname⟩)
      · exact .inr (.inr ⟨k', List.mem_cons_of_mem _ hk', hname⟩)

theorem takes_bindAll (c : ImportClause) (moved : List NamedImport) :
    Takes c moved (c.bindAll moved) := by
  induction moved generalizing c with
  | nil => exact ⟨rfl, rfl, ⟨[], by simp [ImportClause.bindAll], .slnil, by simp, by simp⟩, by simp⟩
  | cons n moved ih =>
    rw [ImportClause.bindAll, List.foldl_cons, ImportClause.bind]
    split
    · rename_i hbound
      exact (ih c).skip hbound
    · rename_i hbound
      exact (ih _).push (Bool.not_eq_true _ ▸ hbound)

end Takes

/-- The edit that leaves an import with a clause, below a new import if there is one. -/
def rewritten (source : Text) (style : Style) (new : Option Text) (change : Span × ImportClause) :
    Edit :=
  match new.toList ++ (change.2.render? style).toList with
  | [] => .remove (source.removalSpan change.1)
  | lines => .replace (source.statementSpan change.1) (Text.join ['\n'] lines)

theorem apiEdits_eq_rewritten (source : Text) (style : Style) (new : Option Text)
    (change : Span × ImportClause) (rest : List (Span × ImportClause)) :
    apiEdits source style new (change :: rest) = (rewritten source style new change ::
      (apiEdits source style none rest).1, (apiEdits source style none rest).2) := by
  obtain ⟨span, clause⟩ := change
  cases new <;> cases hrender : clause.render? style <;>
    simp [apiEdits, rewritten, hrender, Text.join]

/-- The edits of the imports of the API package. A new import goes above the first of those that
change, or above the first of all if none does. -/
def importEdits (script : Script) (new : Option Text) (changes : List (Span × ImportClause)) :
    List Edit :=
  match new, changes with
  | none, changes => changes.map (rewritten script.source script.style none)
  | some text, [] =>
    [.insert (((script.program.importsFrom apiPackage).head?.map (·.span.start)).getD 0)
      (text ++ ['\n'])]
  | some text, change :: rest =>
    rewritten script.source script.style (some text) change ::
      rest.map (rewritten script.source script.style none)

theorem apiEdits_above (script : Script) (new : Option Text) (changes : List (Span × ImportClause)) :
    (apiEdits script.source script.style new changes).1 ++
      aboveEdits script (apiEdits script.source script.style new changes).2 =
        importEdits script new changes := by
  have hplain (changes : List (Span × ImportClause)) :
      apiEdits script.source script.style none changes =
        (changes.map (rewritten script.source script.style none), none) := by
    induction changes with
    | nil => rfl
    | cons change rest ih => rw [apiEdits_eq_rewritten, ih, List.map_cons]
  cases new with
  | none => rw [hplain, aboveEdits, List.append_nil, importEdits]
  | some text =>
    cases changes with
    | nil => rfl
    | cons change rest =>
      rw [apiEdits_eq_rewritten, hplain, importEdits, aboveEdits, List.append_nil]

end Imports

section Patch

/-- The first import of the base package that has a clause. -/
def baseImport? (p : Program) : Option (Span × ImportClause) :=
  (p.importsFrom basePackage).findSome? fun decl =>
    (ImportClause.ofDeclaration? decl).map fun clause => (decl.span, clause)

/-- The names that move: those that are imported, then those that are read as `Api.name`. -/
def movedNames (p : Program) (symbols : List String) : List NamedImport :=
  ((apiImports p).flatMap fun i => i.clause.named.filter isUi) ++ symbols.map .plain

/-- How the edits of a patch distribute the names: `sites` are the places of `Api.name` with their
edits `members`, `symbols` the names there, and `keep` says whether defaults stay. -/
structure Distribution (script : Script) (sites : List Address) (members : List Edit)
    (symbols : List String) (keep : Bool) : Prop where
  /-- Every `Api.name` is replaced by the name, once, and nothing else is. -/
  sites_lists : Lists sites fun a => ∃ name, SymbolAt script.program name a
  members_sites : List.Forall₂ (fun a e => ∃ name m, SymbolAt script.program name a ∧
    script.program.at? a = some m ∧ e = .replace m.span name.toList) sites members
  symbols_nodup : symbols.Nodup
  mem_symbols : ∀ name, name ∈ symbols ↔ ∃ a, SymbolAt script.program name a
  /-- Defaults stay exactly if something else refers to the package. -/
  keep_iff : keep = true ↔ ∃ a, RefersAt script.program a
  /-- What each import is left with. -/
  leaves : ∀ i ∈ apiImports script.program, Leaves keep i.clause (remaining keep i.clause)
  /-- The names that move go to the first import of the base package that has a clause, or into a
  new one, which one edit carries. -/
  edits :
    let changes := (apiImports script.program).filterMap fun i =>
      if remaining keep i.clause = i.clause then none else some (i.span, remaining keep i.clause)
    let moved := movedNames script.program symbols
    match baseImport? script.program with
    | some (span, clause) =>
      ∃ full text, Takes { clause with main := clause.main <|> some baseName } moved full ∧
        full.render? script.style = some text ∧
        (patch script).edits =
          (if full = clause then [] else [.replace (script.source.statementSpan span) text]) ++
            importEdits script none changes ++ members
    | none =>
      ∃ full text, Takes ⟨if script.program.importsFrom basePackage = [] then some baseName else none,
          [], basePackage⟩ moved full ∧
        full.render? script.style = some text ∧
        (patch script).edits = importEdits script (some text) changes ++ members

/-- A pass that applies has names to move. -/
theorem movedNames_ne_nil {script : Script} (h : applies script = true)
    (hplain : PlainlyBound script) :
    movedNames script.program (memberSymbols (uses script)) ≠ [] := by
  rw [applies, Bool.and_eq_true, Bool.or_eq_true] at h
  rcases h.2 with hmember | himport
  · cases hus : memberEdits (uses script) with
    | nil => simp [hus] at hmember
    | cons e rest =>
      have he : e ∈ memberEdits (uses script) := by
        rw [hus]
        exact List.mem_cons_self
      obtain ⟨u, hu, hedit⟩ := List.mem_filterMap.mp he
      cases u with
      | kept => cases hedit
      | symbol s name =>
        obtain ⟨a, ha⟩ := (mem_uses_iff hplain).mp hu
        have hname := ((mem_memberSymbols hplain).2 name).mpr ⟨a, symbolAt_iff.mpr ⟨s, ha⟩⟩
        exact List.ne_nil_of_mem
          (List.mem_append_right _ (List.mem_map.mpr ⟨name, hname, rfl⟩))
  · obtain ⟨i, hi, hui⟩ := List.any_eq_true.mp himport
    obtain ⟨n, hn, hui⟩ := List.any_eq_true.mp hui
    exact List.ne_nil_of_mem (List.mem_append_left _
      (List.mem_flatMap.mpr ⟨i, hi, List.mem_filter.mpr ⟨hn, hui⟩⟩))

section Groups

variable {script : Script}

theorem patch_edits_of_base {span : Span} {clause : ImportClause}
    (h : baseImport? script.program = some (span, clause)) :
    let full := ImportClause.bindAll { clause with main := clause.main <|> some baseName }
      (movedNames script.program (memberSymbols (uses script)))
    (patch script).edits = grouped script (if full = clause then [] else
      (full.render? script.style).toList.map (.replace (script.source.statementSpan span))) none := by
  intro full
  rw [baseImport?] at h
  simp only [patch, h]
  split
  · rename_i hfull
    rw [if_pos (show full = clause from beq_iff_eq.mp hfull)]
    rfl
  · rename_i hfull
    rw [if_neg fun heq : full = clause => hfull (beq_iff_eq.mpr heq)]
    rfl

theorem patch_edits_of_no_base (h : baseImport? script.program = none) :
    (patch script).edits = grouped script [] ((ImportClause.bindAll
      ⟨if script.program.importsFrom basePackage = [] then some baseName else none, [], basePackage⟩
      (movedNames script.program (memberSymbols (uses script)))).render? script.style) := by
  rw [baseImport?] at h
  simp only [patch, h]
  cases script.program.importsFrom basePackage <;> rfl

end Groups

/-- Two imports of the API package, with aliases, a type and a default that is still in use, beside a
base package that cannot take any names. -/
def splitText : Text :=
  ("import Api, \x7b Component, request as ask, memo as m \x7d from '@tarojs/taro'\n" ++
    "import \x7b type Fragment, useState \x7d from '@tarojs/taro'\nimport * as React from 'react'\n" ++
    "class A extends Api.PureComponent \x7b f() \x7b return Api.go(Api.useState) \x7d \x7d").toList

end Patch

end UiImports

end Codemod
