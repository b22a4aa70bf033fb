import Codemod.Project.Entry
import Codemod.Proofs.Disk
import Codemod.Proofs.Module.Component
import Codemod.Proofs.Module.ImportEdit
import Codemod.Proofs.Pass.Router.Scan
import Codemod.Proofs.Syntax.Parser

/-!
# Codemod.Proofs.Project.Entry

Which edits of the entry module get in each other's way.

Six kinds of edits are planned for one text, each without knowing of the others. Most of them never
meet: they belong to statements of different roles (`Owned.apart`), or to nodes beside each other.
What is left is what `Untangled` says, and that is all: `edits_lossless_iff`.

* `edits_eq`: the edits by kind, and `*_spot`: where each of them stands.
* `edits_pairwise`, `untangled_of_pairwise`: the edits are apart exactly where nothing is tangled.
* `edits_lose_removal`: two modules in which a removal is dropped.
-/

namespace Codemod

namespace Entry

variable {script : Script} {e : Edit} {p : Program} {c : ClassShape}

theorem declares_of_class? (h : class? p = some c) : p.Declares c := by
  unfold class? at h
  split at h
  · rename_i c' hexport
    cases h
    exact Program.declares_of_defaultExport hexport
  · split at h
    · rename_i c' hbootstrap
      cases h
      obtain ⟨⟨span, name⟩, -, hcomponent⟩ := Option.bind_eq_some_iff.mp hbootstrap
      exact Program.declares_of_component? hcomponent
    · split at h
      · rename_i c' hplain
        cases h
        exact Program.declares_of_plainClasses (hplain ▸ List.mem_singleton_self _)
      · cases h

/-- The configuration that moves is a field of the class of the app, or a statement. -/
theorem moving?_cases {object : ObjectLiteral} {span : Span}
    (h : moving? p = some (object, span)) :
    (∃ c name head init, class? p = some c ∧ .field span name head init ∈ c.members) ∨
      ∃ s target value, .statement span (.assign s target value) ∈ p.body := by
  obtain ⟨config, hconfig, h⟩ := Option.bind_eq_some_iff.mp h
  obtain ⟨movable, hmovable, h⟩ := Option.bind_eq_some_iff.mp h
  cases h
  unfold config? at hconfig
  split at hconfig
  · cases hconfig
    cases hmovable
  · obtain ⟨c, hclass, hconfig⟩ := Option.bind_eq_some_iff.mp hconfig
    unfold classConfig? at hconfig
    split at hconfig
    · rename_i hconfigs
      cases hconfig
      cases hmovable
      obtain ⟨name, head, init, hmem⟩ := Program.mem_configs (hconfigs ▸ List.mem_cons_self)
      exact .inl ⟨c, name, head, init, hclass, hmem⟩
    · obtain ⟨name, -, hconfig⟩ := Option.bind_eq_some_iff.mp hconfig
      obtain ⟨⟨owner, span', object'⟩, hmem, hconfig⟩ := List.exists_of_findSome?_eq_some hconfig
      dsimp only at hconfig
      split at hconfig
      · cases hconfig
        cases hmovable
        exact .inr (Program.mem_assignedConfigs hmem)
      · cases hconfig

/-- The removal of the configuration that moves. -/
def configEdits (script : Script) : List Edit :=
  (moving? script.program).toList.map fun (_, span) => .remove (script.source.removalSpan span)

/-- Where the launch parameters are read. -/
def launchReads (p : Program) : List Span :=
  p.gather visitParams ()

/-- The rewriting of these reads. -/
def readEdits (script : Script) : List Edit :=
  (launchReads script.program).map fun span =>
    .replace span (instanceFactory.toList ++ "().router.params".toList)

/-- The import that goes with it. -/
def importEdits (script : Script) : List Edit :=
  if (launchReads script.program).isEmpty then []
  else (script.ensureImport? apiPackage instanceFactory).toList

theorem edits_eq (script : Script) : edits script =
    configEdits script ++ hookEdits script ++ (readEdits script ++ importEdits script) ++
      bootstrapEdits script ++ deadImportEdits script := by
  have hparams : paramEdits script = readEdits script ++ importEdits script := by
    unfold paramEdits readEdits importEdits launchReads
    cases script.program.gather visitParams () with
    | nil => rfl
    | cons read reads => rfl
  rw [edits, hparams]
  rfl

section Spots

/-- The configuration is a field of the class of the app, or a statement. -/
theorem configEdits_spot (he : e ∈ configEdits script) :
    (∃ c span name head init, class? script.program = some c ∧
      .field span name head init ∈ c.members ∧ script.source.Widens span e.span) ∨
      ∃ span s target value, .statement span (.assign s target value) ∈ script.program.nodes ∧
        script.source.Widens span e.span := by
  obtain ⟨⟨object, span⟩, hmoving, rfl⟩ := List.mem_map.mp he
  rcases moving?_cases (Option.mem_toList.mp hmoving) with
    ⟨c, name, head, init, hclass, hmem⟩ | ⟨s, target, value, hmem⟩
  · exact .inl ⟨c, span, name, head, init, hclass, hmem, .inr rfl⟩
  · exact .inr ⟨span, s, target, value, Program.mem_nodes_of_mem_body hmem, .inr rfl⟩

theorem hookEdits_spot (he : e ∈ hookEdits script) :
    ∃ c span name key parts, class? script.program = some c ∧
      .method span (some name) key parts ∈ c.members ∧ e.span = key := by
  unfold hookEdits at he
  split at he
  · cases he
  · rename_i c hclass
    split at he
    · cases he
    · rename_i key hkey
      split at he
      · cases he
      · rw [List.mem_singleton.mp he]
        obtain ⟨m, hm, hfound⟩ := List.exists_of_findSome?_eq_some hkey
        split at hfound
        · split at hfound
          · rename_i hname
            cases hfound
            rw [eq_of_beq hname] at hm
            exact ⟨c, _, _, _, _, hclass, hm, rfl⟩
          · cases hfound
        · cases hfound

theorem readEdits_spot (he : e ∈ readEdits script) :
    ∃ x, script.program.Has x ∧ e.span = x.span ∧
      ∃ span s t, x = .member span (.member s (.this t) "$router") "params" := by
  obtain ⟨read, hread, rfl⟩ := List.mem_map.mp he
  obtain ⟨_, x, hx, hfound⟩ := Program.exists_of_mem_gather hread
  unfold visitParams at hfound
  split at hfound
  · split at hfound
    · rename_i hthis
      obtain ⟨s, t, rfl⟩ := Router.isThisMember_iff.mp hthis
      rw [List.mem_singleton.mp hfound]
      exact ⟨_, hx, rfl, _, s, t, rfl⟩
    · cases hfound
  · cases hfound

theorem importEdits_spot (he : e ∈ importEdits script) : script.BindsAt e.span := by
  unfold importEdits at he
  split at he
  · cases he
  · exact Script.ensureImport?_bindsAt (Option.mem_toList.mp he)

theorem mem_of_bootstrap? {span : Span} {name : String} (h : p.bootstrap? = some (span, name)) :
    ∃ s callee types arguments, .statement span (.call s callee types arguments) ∈ p.body := by
  obtain ⟨n, hn, hfound⟩ := List.exists_of_findSome?_eq_some h
  split at hfound
  · cases hfound
    exact ⟨_, _, _, _, hn⟩
  · cases hfound

theorem bootstrapEdits_spot (he : e ∈ bootstrapEdits script) :
    ∃ span name, script.program.bootstrap? = some (span, name) ∧
      script.source.Widens span e.span := by
  unfold bootstrapEdits at he
  split at he
  · cases he
  · rename_i span name hbootstrap
    refine ⟨span, name, hbootstrap, ?_⟩
    split at he
    · rw [List.mem_singleton.mp he]
      exact .inl rfl
    · rw [List.mem_singleton.mp he]
      exact .inr rfl

theorem deadImportEdits_spot (he : e ∈ deadImportEdits script) :
    ∃ decl ∈ script.program.imports, decl.specifiers = none ∧
      script.source.Widens decl.span e.span := by
  obtain ⟨decl, hdecl, hedit⟩ := List.mem_filterMap.mp he
  split at hedit
  · rename_i hdead
    rw [Bool.and_eq_true, Option.isNone_iff_eq_none] at hdead
    cases hedit
    exact ⟨decl, hdecl, hdead.1, .inr rfl⟩
  · cases hedit

end Spots

section Apart

variable {source : Text} {out outA outB : Span} {k : Edit}

/-- A span that belongs to a statement of this kind. -/
def Owned (p : Program) (source : Text) (role : Node.Role) (out : Span) : Prop :=
  ∃ n ∈ p.nodes, n.role = role ∧ n.Owns source out

theorem Owned.apart {r r' : Node.Role} (hA : Owned p source r outA) (hB : Owned p source r' outB)
    (h : p.Laid source) (hne : r ≠ r') : outA.Apart outB := by
  obtain ⟨a, ha, rfl, hA⟩ := hA
  obtain ⟨b, hb, rfl, hB⟩ := hB
  refine h.apart_of_ne ha hb ?_ hA hB
  rintro rfl
  exact hne rfl

theorem owned_of_import {decl : ImportDeclaration} (hdecl : decl ∈ p.imports)
    (hout : source.Widens decl.span out) : Owned p source .imported out := by
  obtain ⟨parts, hn⟩ := Program.mem_imports.mp hdecl
  exact ⟨_, Program.mem_nodes_of_mem_body hn, rfl, .whole (Node.solid_importDecl decl parts) hout⟩

/-- What belongs to the class of the app belongs to a declaration. -/
theorem owned_of_class (hclass : class? script.program = some c)
    (hout : out.Inside c.span) : Owned script.program script.source .declared out := by
  obtain ⟨n, hn, hrole, head, hy⟩ := (declares_of_class? hclass).classDef
  exact ⟨n, hn, hrole, .inner _ hy nofun hout⟩

variable (h : script.program.Laid script.source)

include h

theorem tidy_of_class (hclass : class? script.program = some c) :
    ∃ head, script.program.Has (.classDef c.span c.name head c.body c.members) ∧
      (Node.classDef c.span c.name head c.body c.members).Tidy script.source := by
  obtain ⟨n, hn, -, head, hy⟩ := (declares_of_class? hclass).classDef
  exact ⟨head, ⟨n, hn, hy⟩, (h.tidy n hn).of_mem hy⟩

theorem sharp_of_moving? {object : ObjectLiteral} {span : Span}
    (hmoving : moving? script.program = some (object, span)) : span.Sharp script.source := by
  rcases moving?_cases hmoving with ⟨c, name, head, init, hclass, hfield⟩ | ⟨s, target, value, hn⟩
  · obtain ⟨_, -, htidy⟩ := tidy_of_class h hclass
    exact ((Node.tidy_iff.mp htidy).2 _ (List.mem_append_right _ hfield)).sharp
  · exact (h.tidy _ (Program.mem_nodes_of_mem_body hn)).sharp

theorem config_owned (he : e ∈ configEdits script) :
    Owned script.program script.source .declared e.span ∨
      Owned script.program script.source .assigned e.span := by
  rcases configEdits_spot he with
    ⟨c, span, name, head, init, hclass, hmem, hout⟩ | ⟨span, s, target, value, hn, hout⟩
  · obtain ⟨_, -, htidy⟩ := tidy_of_class h hclass
    exact .inl (owned_of_class hclass (htidy.inside_of_member hmem hout))
  · exact .inr ⟨_, hn, rfl, .whole nofun hout⟩

/-- The hook is the key of a method in the class of the app. -/
theorem hook_inside (he : e ∈ hookEdits script) : ∃ c m, class? script.program = some c ∧
    m ∈ c.members ∧ script.program.Has m ∧ e.span.Inside m.span ∧ e.span.Sharp script.source ∧
      ∃ span name parts, m = .method span (some name) e.span parts := by
  obtain ⟨c, span, name, key, parts, hclass, hmem, rfl⟩ := hookEdits_spot he
  obtain ⟨head, ⟨n, hn, hy⟩, htidy⟩ := tidy_of_class h hclass
  have hchild : .method span (some name) e.span parts ∈
      (Node.classDef c.span c.name head c.body c.members).children :=
    List.mem_append_right _ hmem
  obtain ⟨hsharp, hle, hstop, -⟩ := ((Node.tidy_iff.mp htidy).2 _ hchild).arranged.2 rfl
  exact ⟨c, _, hclass, hmem,
    ⟨n, hn, Node.postorder_trans (Node.mem_postorder_of_mem_children hchild) hy⟩,
    ⟨hle, hstop⟩, hsharp, span, name, parts, rfl⟩

theorem hook_owned (he : e ∈ hookEdits script) :
    Owned script.program script.source .declared e.span := by
  obtain ⟨c, m, hclass, hmem, -, hinside, -⟩ := hook_inside h he
  obtain ⟨_, -, htidy⟩ := tidy_of_class h hclass
  have hsharp := ((Node.tidy_iff.mp htidy).2 m (List.mem_append_right _ hmem)).sharp
  have hwidens : script.source.Widens m.span (script.source.statementSpan m.span) := .inl rfl
  exact owned_of_class hclass
    (hinside.trans ((hwidens.inside hsharp).trans (htidy.inside_of_member hmem hwidens)))

omit h in
theorem bootstrap_owned (he : e ∈ bootstrapEdits script) :
    Owned script.program script.source .called e.span := by
  obtain ⟨span, name, hbootstrap, hout⟩ := bootstrapEdits_spot he
  obtain ⟨_, _, _, _, hn⟩ := mem_of_bootstrap? hbootstrap
  exact ⟨_, Program.mem_nodes_of_mem_body hn, rfl, .whole nofun hout⟩

omit h in
theorem dead_owned (he : e ∈ deadImportEdits script) :
    Owned script.program script.source .imported e.span := by
  obtain ⟨decl, hdecl, -, hout⟩ := deadImportEdits_spot he
  exact owned_of_import hdecl hout

/-- The configuration is not what the hook is renamed in. -/
theorem config_apart_hook (he : e ∈ configEdits script) (hk : k ∈ hookEdits script) :
    e.span.Apart k.span := by
  rcases configEdits_spot he with
    ⟨c, span, name, head, init, hclass, hfield, hout⟩ | ⟨span, s, target, value, hn, hout⟩
  · obtain ⟨c', m, hclass', hmem, -, hinside, -, _, _, _, rfl⟩ := hook_inside h hk
    rw [hclass] at hclass'
    cases hclass'
    obtain ⟨_, -, htidy⟩ := tidy_of_class h hclass
    rcases htidy.apart_of_members hfield hmem (Node.mem_postorder_self _) hout with heq | hapart
    · cases heq
    · exact hapart.mono (.refl _) hinside
  · have howned : Owned script.program script.source .assigned e.span :=
      ⟨_, hn, rfl, .whole nofun hout⟩
    exact howned.apart (hook_owned h hk) h nofun

/-- Nothing is read in the key of the hook. -/
theorem hook_apart_read (he : e ∈ hookEdits script) (hk : k ∈ readEdits script) :
    e.span.Apart k.span := by
  obtain ⟨c, m, -, -, hm, hinside, -, span, name, parts, rfl⟩ := hook_inside h he
  obtain ⟨x, hx, hspan, s, t, u, rfl⟩ := readEdits_spot hk
  rw [hspan]
  rcases h.nested_or_apart hm hx with hnested | hnested | hapart
  · simp [Node.postorder] at hnested
  · rcases Node.mem_postorder.mp hnested with hself | ⟨part, hpart, hx⟩
    · cases hself
    obtain ⟨-, -, -, hparts⟩ := (h.tidy_of_has hm).arranged.2 rfl
    rcases hparts part hpart with ⟨_, rfl⟩ | havoids
    · simp [Node.postorder] at hx
    · exact (havoids _ hx).symm
  · exact hapart.mono hinside (.refl _)

theorem reads_pairwise : (readEdits script).Pairwise fun a b => a.span.Apart b.span := by
  refine List.pairwise_map.mpr ((h.gather_pairwise some () ?_ ?_).imp
    fun hab => .inl (hab _ rfl _ rfl))
  · intro _ m read hread a ha
    cases ha
    unfold visitParams at hread
    split at hread
    · split at hread
      · rw [List.mem_singleton.mp hread]
        rfl
      · cases hread
    · cases hread
  · intro _ m
    unfold visitParams
    split
    · split
      · exact .inr ⟨rfl, Nat.le_refl _⟩
      · exact .inl rfl
    · exact .inl rfl

theorem dead_pairwise : (deadImportEdits script).Pairwise fun a b => a.span.Apart b.span := by
  refine List.pairwise_filterMap.mpr (h.imports_pairwise.imp fun {a b} hab e he k hk => ?_)
  split at he <;> cases he
  split at hk <;> cases hk
  exact hab _ _ (.inr rfl) (.inr rfl)

/-- A read that is not in a statement keeps off an edit of it. -/
theorem read_apart_statement {span : Span} {expression x : Node}
    (hn : .statement span expression ∈ script.program.body) (hx : script.program.Has x)
    {t u v : Span} (hread : x = .member t (.member u (.this v) "$router") "params")
    (hnot : ¬ x.span.Inside span) (hout : script.source.Widens span out) :
    x.span.Apart out := by
  have hmem := Program.mem_nodes_of_mem_body hn
  obtain ⟨b, hb, hxb⟩ := hx
  rcases h.apart_widened hmem hb hout hxb (by rw [hread]; nofun) with rfl | hapart
  · exact absurd (Node.inside_of_row (h.tidy _ hmem).arranged hxb) hnot
  · exact hapart.symm

/-- A read that is not in the configuration keeps off what is deleted with it. -/
theorem read_apart_config {object : ObjectLiteral} {span : Span}
    (hmoving : moving? script.program = some (object, span)) {x : Node}
    (hx : script.program.Has x) {t u v : Span}
    (hread : x = .member t (.member u (.this v) "$router") "params")
    (hnot : ¬ x.span.Inside span) : x.span.Apart (script.source.removalSpan span) := by
  have hwidens : script.source.Widens span (script.source.removalSpan span) := .inr rfl
  rcases moving?_cases hmoving with
    ⟨c, name, head, init, hclass, hfield⟩ | ⟨s, target, value, hn⟩
  · obtain ⟨front, hy, htidy⟩ := tidy_of_class h hclass
    rcases h.nested_or_apart hx hy with hnested | hnested | hapart
    · obtain ⟨k, hk, hxk⟩ := (Node.mem_postorder.mp hnested).resolve_left (by rw [hread]; nofun)
      rcases List.mem_append.mp hk with hk | hk
      · obtain ⟨-, -, -, -, -, ⟨lo, hhead⟩, -⟩ := htidy.arranged
        have hstart := (htidy.inside_braces hfield hwidens).1
        have hle := (hhead.within k hk x hxk).2
        exact .inl (Nat.le_trans hle (Nat.le_of_succ_le hstart))
      · rcases htidy.apart_of_members hfield hk hxk hwidens with rfl | hapart
        · have harranged := ((Node.tidy_iff.mp htidy).2 _ (List.mem_append_right _ hfield)).arranged
          exact absurd (Node.inside_of_row harranged hxk) hnot
        · exact hapart.symm
    · rw [hread] at hnested
      simp [Node.postorder] at hnested
    · exact hapart.mono (.refl _) (htidy.inside_of_member hfield hwidens)
  · exact read_apart_statement h hn hx hread hnot hwidens

theorem edits_fits (he : e ∈ edits script) : e.Fits script.source := by
  simp only [edits_eq, List.mem_append] at he
  rcases he with (((he | he) | (he | he)) | he) | he
  · rcases configEdits_spot he with
      ⟨c, span, name, head, init, hclass, hmem, hout⟩ | ⟨span, s, target, value, hn, hout⟩
    · obtain ⟨_, -, htidy⟩ := tidy_of_class h hclass
      exact hout.fits ((Node.tidy_iff.mp htidy).2 _ (List.mem_append_right _ hmem)).sharp
    · exact hout.fits (h.tidy _ hn).sharp
  · obtain ⟨_, _, -, -, -, -, hsharp, -⟩ := hook_inside h he
    exact hsharp.fits
  · obtain ⟨x, hx, hspan, -⟩ := readEdits_spot he
    exact Span.Sharp.fits (hspan ▸ h.sharp_of_has hx)
  · exact (importEdits_spot he).fits h
  · obtain ⟨span, name, hbootstrap, hout⟩ := bootstrapEdits_spot he
    obtain ⟨_, _, _, _, hn⟩ := mem_of_bootstrap? hbootstrap
    exact hout.fits (h.tidy _ (Program.mem_nodes_of_mem_body hn)).sharp
  · obtain ⟨decl, hdecl, -, hout⟩ := deadImportEdits_spot he
    exact hout.fits (h.sharp_of_import hdecl)

/-- An import that is extended keeps off all removals; a new one may only fall inside. -/
theorem import_apart (he : e ∈ importEdits script)
    (hk : k ∈ configEdits script ++ bootstrapEdits script ++ deadImportEdits script)
    (hnot : ¬ (k.span.start < e.span.start ∧ e.span.stop < k.span.stop)) :
    e.span.Apart k.span := by
  have hbinds := importEdits_spot he
  generalize e.span = span at hbinds hnot
  have hpoint {q : Nat} (hnot : ¬ (k.span.start < q ∧ q < k.span.stop)) :
      Span.Apart ⟨q, q⟩ k.span := by
    show q ≤ k.span.start ∨ k.span.stop ≤ q
    omega
  cases hbinds with
  | extended decl hdecl hspecifiers =>
    have hout : script.source.Widens decl.span (script.source.statementSpan decl.span) := .inl rfl
    have howned := owned_of_import hdecl hout
    rcases List.mem_append.mp hk with hk | hk
    · rcases List.mem_append.mp hk with hk | hk
      · rcases config_owned h hk with hk | hk
        · exact howned.apart hk h nofun
        · exact howned.apart hk h nofun
      · exact howned.apart (bootstrap_owned hk) h nofun
    · obtain ⟨dead, hdead, hnone, hout'⟩ := deadImportEdits_spot hk
      refine h.imports_apart hdecl hdead ?_ hout hout'
      rintro rfl
      rw [hnone] at hspecifiers
      cases hspecifiers
  | last => exact hpoint hnot
  | first => exact hpoint hnot
  | alone => exact hpoint hnot

end Apart

theorem pairwise_of_length_le {R : Edit → Edit → Prop} {es : List Edit} (h : es.length ≤ 1) :
    es.Pairwise R := by
  match es, h with
  | [], _ => exact .nil
  | [e], _ => exact List.pairwise_singleton _ _

theorem length_configEdits (script : Script) : (configEdits script).length ≤ 1 := by
  unfold configEdits
  cases moving? script.program <;> simp

theorem length_hookEdits (script : Script) : (hookEdits script).length ≤ 1 := by
  unfold hookEdits
  split
  · simp
  · split
    · simp
    · split <;> simp

theorem length_importEdits (script : Script) : (importEdits script).length ≤ 1 := by
  unfold importEdits
  split
  · simp
  · cases script.ensureImport? apiPackage instanceFactory <;> simp

theorem length_bootstrapEdits (script : Script) : (bootstrapEdits script).length ≤ 1 := by
  unfold bootstrapEdits
  split
  · simp
  · split <;> simp

/-- What keeps the edits of an entry module from getting in each other's way. -/
structure Untangled (script : Script) : Prop where
  /-- The configuration that moves does not read the launch parameters, -/
  config : ∀ object span, moving? script.program = some (object, span) →
    ∀ read ∈ launchReads script.program, ¬ read.Inside span
  /-- nor does the call that renders the app, -/
  bootstrap : ∀ span name, script.program.bootstrap? = some (span, name) →
    ∀ read ∈ launchReads script.program, ¬ read.Inside span
  /-- and the import that goes with the reads is not put inside of what is deleted. -/
  binding : ∀ e ∈ importEdits script,
    ∀ k ∈ configEdits script ++ bootstrapEdits script ++ deadImportEdits script,
      ¬ (k.span.start < e.span.start ∧ e.span.stop < k.span.stop)

section Pairwise

variable (h : script.program.Laid script.source)

include h

theorem hook_apart_import {e k : Edit} (he : e ∈ hookEdits script) (hk : k ∈ importEdits script) :
    e.span.Apart k.span := by
  obtain ⟨_, m, -, -, hm, hinside, -, _, _, _, rfl⟩ := hook_inside h he
  exact ((importEdits_spot hk).apart h hm rfl).symm.mono hinside (.refl _)

theorem config_apart_owned {e : Edit} {r : Node.Role} {out : Span} (he : e ∈ configEdits script)
    (hout : Owned script.program script.source r out) (hr : r = .called ∨ r = .imported) :
    e.span.Apart out := by
  rcases config_owned h he with he | he
  · exact he.apart hout h (by rcases hr with rfl | rfl <;> nofun)
  · exact he.apart hout h (by rcases hr with rfl | rfl <;> nofun)

theorem Untangled.read_apart (hclean : Untangled script) {e k : Edit} (he : e ∈ readEdits script)
    (hk : k ∈ configEdits script ∨ k ∈ bootstrapEdits script) : e.span.Apart k.span := by
  obtain ⟨read, hread, rfl⟩ := List.mem_map.mp he
  obtain ⟨x, hx, hspan, t, u, v, hnode⟩ := readEdits_spot he
  replace hspan : read = x.span := hspan
  rcases hk with hk | hk
  · obtain ⟨⟨object, span⟩, hmoving, rfl⟩ := List.mem_map.mp hk
    have hmoving := Option.mem_toList.mp hmoving
    have hnot := hclean.config object span hmoving read hread
    rw [hspan] at hnot
    exact hspan ▸ read_apart_config h hmoving hx hnode hnot
  · obtain ⟨span, name, hbootstrap, hout⟩ := bootstrapEdits_spot hk
    obtain ⟨_, _, _, _, hn⟩ := mem_of_bootstrap? hbootstrap
    have hnot := hclean.bootstrap span name hbootstrap read hread
    rw [hspan] at hnot
    exact hspan ▸ read_apart_statement h hn hx hnode hnot hout

theorem edits_pairwise (hclean : Untangled script) :
    (edits script).Pairwise fun a b => a.span.Apart b.span := by
  have hbinding {e k : Edit} (he : e ∈ importEdits script)
      (hk : k ∈ configEdits script ++ bootstrapEdits script ++ deadImportEdits script) :
      e.span.Apart k.span :=
    import_apart h he hk (hclean.binding e he k hk)
  simp only [edits_eq, List.pairwise_append, List.mem_append]
  refine ⟨⟨⟨⟨pairwise_of_length_le (length_configEdits script),
    pairwise_of_length_le (length_hookEdits script), fun e he k hk => config_apart_hook h he hk⟩,
    ⟨reads_pairwise h, pairwise_of_length_le (length_importEdits script), fun e he k hk => ?_⟩, ?_⟩,
    pairwise_of_length_le (length_bootstrapEdits script), ?_⟩, dead_pairwise h, ?_⟩
  · obtain ⟨x, hx, hspan, _, _, _, rfl⟩ := readEdits_spot he
    exact hspan ▸ ((importEdits_spot hk).apart h hx rfl).symm
  · rintro e (he | he) k (hk | hk)
    · exact (hclean.read_apart h hk (.inl he)).symm
    · exact (hbinding hk (by simp [he])).symm
    · exact hook_apart_read h he hk
    · exact hook_apart_import h he hk
  · rintro e ((he | he) | (he | he)) k hk
    · exact config_apart_owned h he (bootstrap_owned hk) (.inl rfl)
    · exact (hook_owned h he).apart (bootstrap_owned hk) h nofun
    · exact hclean.read_apart h he (.inr hk)
    · exact hbinding he (by simp [hk])
  · rintro e (((he | he) | (he | he)) | he) k hk
    · exact config_apart_owned h he (dead_owned hk) (.inr rfl)
    · exact (hook_owned h he).apart (dead_owned hk) h nofun
    · obtain ⟨x, hx, hspan, _, _, _, rfl⟩ := readEdits_spot he
      obtain ⟨decl, hdecl, -, hout⟩ := deadImportEdits_spot hk
      exact hspan ▸ (h.apart_import hdecl hout hx rfl).symm
    · exact hbinding he (by simp [hk])
    · exact (bootstrap_owned he).apart (dead_owned hk) h nofun

/-- A read that an edit keeps off is no part of what the edit takes. -/
theorem not_inside_of_apart {e k : Edit} {span : Span} (he : e ∈ readEdits script)
    (hapart : e.span.Apart k.span) (hinside : span.Inside k.span) : ¬ e.span.Inside span := by
  obtain ⟨x, hx, hspan, -⟩ := readEdits_spot he
  have hlt := (h.sharp_of_has hx).lt
  rw [← hspan] at hlt
  exact fun hread => hapart.not_inside hlt (hread.trans hinside)

theorem untangled_of_pairwise (hpairs : (edits script).Pairwise fun a b => a.span.Apart b.span) :
    Untangled script := by
  have hfits (e : Edit) (he : e ∈ importEdits script) : e.span.start ≤ e.span.stop :=
    ((importEdits_spot he).fits h).start_le_stop
  simp only [edits_eq, List.pairwise_append, List.mem_append] at hpairs
  obtain ⟨⟨⟨-, -, hparams⟩, -, hbootstrap⟩, -, hdead⟩ := hpairs
  have hread (read : Span) (hread : read ∈ launchReads script.program) :
      Edit.replace read (instanceFactory.toList ++ "().router.params".toList) ∈ readEdits script :=
    List.mem_map_of_mem hread
  constructor
  · intro object span hmoving read hmem
    have hconfig : Edit.remove (script.source.removalSpan span) ∈ configEdits script :=
      List.mem_map.mpr ⟨(object, span), Option.mem_toList.mpr hmoving, rfl⟩
    have hsharp := sharp_of_moving? h hmoving
    have hwidens : script.source.Widens span (script.source.removalSpan span) := .inr rfl
    have hapart := hparams _ (.inl hconfig) _ (.inl (hread read hmem))
    exact not_inside_of_apart h (hread read hmem) hapart.symm (hwidens.inside hsharp)
  · intro span name hboot read hmem
    obtain ⟨_, _, _, _, hn⟩ := mem_of_bootstrap? hboot
    have hsharp := (h.tidy _ (Program.mem_nodes_of_mem_body hn)).sharp
    obtain ⟨k, hk, hwidens⟩ : ∃ k ∈ bootstrapEdits script, script.source.Widens span k.span := by
      unfold bootstrapEdits
      rw [hboot]
      dsimp only
      split
      · exact ⟨_, List.mem_singleton_self _, .inl rfl⟩
      · exact ⟨_, List.mem_singleton_self _, .inr rfl⟩
    have hapart := hbootstrap _ (.inr (.inl (hread read hmem))) k hk
    exact not_inside_of_apart h (hread read hmem) hapart (hwidens.inside hsharp)
  · rintro e he k hk ⟨hstart, hstop⟩
    have hapart : e.span.Apart k.span := by
      rcases List.mem_append.mp hk with hk | hk
      · rcases List.mem_append.mp hk with hk | hk
        · exact (hparams k (.inl hk) e (.inr he)).symm
        · exact hbootstrap e (.inr (.inr he)) k hk
      · exact hdead e (.inl (.inr (.inr he))) k hk
    have hle := hfits e he
    unfold Span.Apart at hapart
    omega

theorem edits_lossless (hclean : Untangled script) :
    Edit.Lossless script.source (edits script) :=
  (Edit.lossless_iff fun _ => edits_fits h).mpr (edits_pairwise h hclean)

end Pairwise

/-- An edit that is carried out takes the span away and leaves `text` there. -/
def Replaced (source : Text) (es : List Edit) (span : Span) (text : Text) : Prop :=
  ∃ r ∈ Edit.kept source es, span.Inside r.1.span ∧ r.1.text = text

theorem replaced_of_mem {source : Text} {es : List Edit} {e : Edit} {span : Span}
    (h : Edit.Lossless source es) (he : e ∈ es) (hspan : span.Sharp source)
    (hwidens : source.Widens span e.span) : Replaced source es span e.text := by
  rw [← List.zipIdx_map_fst 0 es] at he
  obtain ⟨r, hr, rfl⟩ := List.mem_map.mp he
  exact ⟨r, h.kept.mem_iff.mpr hr, hwidens.inside hspan, rfl⟩

/-- In an entry module that can be parsed, all edits are carried out exactly where nothing gets in
the way. The configuration that moves, the call that renders the app and the imports of packages
without a successor are then gone from the text. -/
theorem edits_lossless_iff {path : Path} {source : Text} {script : Script}
    (hparse : Script.parse path source = .ok script) :
    (Edit.Lossless script.source (edits script) ↔ Untangled script) ∧
    (Untangled script →
      (∀ object span, moving? script.program = some (object, span) →
        Replaced script.source (edits script) span []) ∧
      (∀ span name, script.program.bootstrap? = some (span, name) →
        Replaced script.source (edits script) span [] ∨
          script.program.defaultExport = .missing ∧
            Replaced script.source (edits script) span
              ("export default ".toList ++ name.toList ++ script.style.terminator)) ∧
      ∀ decl ∈ script.program.imports, decl.specifiers = none →
        Dependency.isDeprecated decl.source = true →
          Replaced script.source (edits script) decl.span []) := by
  obtain ⟨-, hlaid⟩ := Script.parse_laid hparse
  refine ⟨⟨fun h => ?_, edits_lossless hlaid⟩, fun hclean => ?_⟩
  · exact untangled_of_pairwise hlaid ((Edit.lossless_iff fun _ => edits_fits hlaid).mp h)
  have hlossless := edits_lossless hlaid hclean
  have hmem {e : Edit} (he : (e ∈ configEdits script ∨ e ∈ bootstrapEdits script) ∨
      e ∈ deadImportEdits script) : e ∈ edits script := by
    rw [edits_eq]
    simp only [List.mem_append]
    tauto
  refine ⟨fun object span hmoving => ?_, fun span name hboot => ?_,
    fun decl hdecl hnone hdead => ?_⟩
  · refine replaced_of_mem hlossless (hmem (.inl (.inl ?_))) (sharp_of_moving? hlaid hmoving)
      (e := .remove (script.source.removalSpan span)) (.inr rfl)
    exact List.mem_map.mpr ⟨(object, span), Option.mem_toList.mpr hmoving, rfl⟩
  · obtain ⟨_, _, _, _, hn⟩ := mem_of_bootstrap? hboot
    have hsharp := (hlaid.tidy _ (Program.mem_nodes_of_mem_body hn)).sharp
    have hgone {e : Edit} (he : e ∈ bootstrapEdits script)
        (hwidens : script.source.Widens span e.span) :
        Replaced script.source (edits script) span e.text :=
      replaced_of_mem hlossless (hmem (.inl (.inr he))) hsharp hwidens
    unfold bootstrapEdits at hgone
    rw [hboot] at hgone
    dsimp only at hgone
    split at hgone
    · rename_i hmissing
      exact .inr ⟨hmissing, hgone (List.mem_singleton_self _) (.inl rfl)⟩
    · exact .inl (hgone (List.mem_singleton_self _) (.inr rfl))
  · refine replaced_of_mem hlossless (hmem (.inr ?_)) (hlaid.sharp_of_import hdecl)
      (e := .remove (script.source.removalSpan decl.span)) (.inr rfl)
    refine List.mem_filterMap.mpr ⟨decl, hdecl, ?_⟩
    rw [hnone, hdead]
    rfl

/-- An entry module with something to do for every kind of edit. -/
def launchText : Text :=
  ("import 'nervjs'\nimport Api from '@tarojs/taro'\nclass App \x7b\n  config = \x7b\x7d\n" ++
    "  componentWillMount() \x7b return this.$router.params \x7d\n\x7d\n" ++
    "Api.render(<App />, 0)").toList

set_option maxRecDepth 100000 in
theorem edits_lossless_iff_launch :
    ∃ script, Script.parse ⟨"src/app.js"⟩ launchText = .ok script ∧ (edits script).length = 6 ∧
      Untangled script ∧ Edit.Lossless script.source (edits script) ∧
      ∀ object span, moving? script.program = some (object, span) →
        Replaced script.source (edits script) span [] := by
  have hcheck : (Script.parse ⟨"src/app.js"⟩ launchText).toOption.any (fun script =>
      (edits script).length == 6 &&
        decide ((edits script).Pairwise fun a b => a.span.Apart b.span)) = true := by
    unfold launchText
    repeat rw [String.toList_append]
    repeat rw [String.toList_ofList]
    decide +kernel
  obtain ⟨script, hparse, hcheck⟩ := exists_ok_of_any hcheck
  rw [Bool.and_eq_true, beq_iff_eq, decide_eq_true_eq] at hcheck
  have hclean := untangled_of_pairwise (Script.parse_laid hparse).2 hcheck.2
  obtain ⟨hiff, hgone⟩ := edits_lossless_iff hparse
  exact ⟨script, hparse, hcheck.1, hclean, hiff.mpr hclean, (hgone hclean).1⟩

/-- The edits of an entry module fit it, but not all of them are carried out, and the result is the
given text. -/
def losesEdit (text result : Text) : Bool :=
  (Script.parse ⟨"src/app.js"⟩ text).toOption.any fun script =>
    decide (∀ e ∈ edits script, e.Fits script.source) &&
      !decide ((edits script).Pairwise fun a b => a.span.Apart b.span) &&
      Edit.applyAll script.source (edits script) == result

theorem of_losesEdit {text result : Text} (h : losesEdit text result = true) :
    ∃ script, Script.parse ⟨"src/app.js"⟩ text = .ok script ∧
      ¬ Edit.Lossless script.source (edits script) ∧
      Edit.applyAll script.source (edits script) = result := by
  obtain ⟨script, hparse, h⟩ := exists_ok_of_any h
  rw [Bool.and_eq_true, Bool.and_eq_true, decide_eq_true_eq, Bool.not_eq_true',
    decide_eq_false_iff_not, beq_iff_eq] at h
  exact ⟨script, hparse, fun hlossless => h.1.2 ((Edit.lossless_iff h.1.1).mp hlossless), h.2⟩

set_option maxRecDepth 100000 in
/-- An import that is added behind the last one keeps a dead import there from being deleted, and
launch parameters that are read in the configuration keep it in its place. -/
theorem edits_lose_removal :
    (∃ script, Script.parse ⟨"src/app.js"⟩
        "import 'nervjs'\nclass A \x7b f() \x7b return this.$router.params \x7d \x7d".toList =
          .ok script ∧
      ¬ Edit.Lossless script.source (edits script) ∧
      Edit.applyAll script.source (edits script) =
        ("import 'nervjs'\nimport \x7b getCurrentInstance \x7d from '@tarojs/taro'\n" ++
          "class A \x7b f() \x7b return getCurrentInstance().router.params \x7d \x7d").toList) ∧
    ∃ script, Script.parse ⟨"src/app.js"⟩
        "class A \x7b config = \x7b a: this.$router.params \x7d \x7d".toList = .ok script ∧
      ¬ Edit.Lossless script.source (edits script) ∧
      Edit.applyAll script.source (edits script) =
        ("import \x7b getCurrentInstance \x7d from '@tarojs/taro';\n" ++
          "class A \x7b config = \x7b a: getCurrentInstance().router.params \x7d \x7d").toList := by
  refine ⟨of_losesEdit ?_, of_losesEdit ?_⟩ <;> rw [String.toList_append] <;>
    repeat rw [String.toList_ofList]
  · decide +kernel
  · decide +kernel

end Entry

end Codemod
