import Codemod.Proofs.Pass.PageConfig
import Codemod.Proofs.Pass.Router
import Codemod.Proofs.Pass.UiImports
import Codemod.Proofs.Session.Worker

/-!
# Codemod.Proofs.Pass.Again

Running a pass for a second time.

A pass writes text, and the text is read again. Where it reads back as the tree that the pass means
(`Pass.ReadsBack`), a second run leaves it as it is (`output_again`). That it reads back cannot be
taken for granted: a name in quotes is written without them, and lines that come together may say
something else (`output_again_differs`).
-/

namespace Codemod

namespace Pass

/-- The text of a file after a pass. A pass that does not apply, or that fails, leaves it as it
is. -/
def output (pass : Pass) (entry path : Path) (source : Text) : Text :=
  (pass.wish entry path (.ok source)).rewritten.getD source

/-- A second run leaves the text as it is, if it can be parsed at all. -/
def Settles (pass : Pass) (entry path : Path) (source : Text) : Prop :=
  (Script.parse path (pass.output entry path source)).toOption.isSome = true →
    pass.output entry path (pass.output entry path source) = pass.output entry path source

instance (pass : Pass) (entry path : Path) (source : Text) :
    Decidable (pass.Settles entry path source) :=
  inferInstanceAs (Decidable (_ → _))

/-- What a pass has written has the tree that was meant. -/
inductive ReadsBack : Pass → Script → Script → Prop where
  | router {script script' : Script} :
      script'.program.Same (Router.meant script.program) → ReadsBack routerPass script script'
  /-- The name of the API package may not be spelled in another way than it was. -/
  | uiImports {script script' : Script} :
      script'.program.Same (UiImports.meant script) →
      (∀ main, UiImports.mainName? script' = some main →
        UiImports.mainName? script = some main) → ReadsBack uiImportsPass script script'
  | pageConfig {script script' : Script} {c : Component} {site : PageConfig.Site} :
      script.program.defaultExport = .component c →
      PageConfig.sites script.program c = [site] →
      script'.program.Same (PageConfig.meant site.remove script.program) →
      ReadsBack pageConfigPass script script'

/-- Whatever the pass writes for this text reads back. -/
def Legible (pass : Pass) (entry path : Path) (source : Text) : Prop :=
  ∀ script script', Script.parse path source = .ok script →
    Script.parse path (pass.output entry path source) = .ok script' →
    pass.output entry path source ≠ source → ReadsBack pass script script'

theorem output_of_not_applies {pass : Pass} {entry path : Path} {source : Text} {script : Script}
    (hparse : Script.parse path source = .ok script) (h : pass.applies script = false) :
    pass.output entry path source = source := by
  unfold output wish
  simp only [hparse, h]
  rfl

theorem output_of_patch {pass : Pass} {entry path : Path} {source : Text} {script : Script}
    (hparse : Script.parse path source = .ok script) (h : pass.patch entry script = .ok .none) :
    pass.output entry path source = source := by
  cases happlies : pass.applies script with
  | false => exact output_of_not_applies hparse happlies
  | true =>
    unfold output wish
    simp only [hparse, happlies, h, if_true]
    rw [Script.wish_of_isEmpty rfl]
    rfl

theorem ReadsBack.output_eq {pass : Pass} {entry path : Path} {source : Text}
    {script script' : Script} (h : ReadsBack pass script script')
    (hparse : Script.parse path source = .ok script') :
    pass.output entry path source = source := by
  cases h with
  | router hsame =>
    refine output_of_not_applies hparse ?_
    simp only [routerPass, Router.reads_of_meant hsame, Bool.and_false]
  | uiImports hsame hmain =>
    exact output_of_not_applies hparse (UiImports.not_applies_of_meant hsame hmain)
  | pageConfig hexport hsites hsame =>
    exact output_of_patch hparse (PageConfig.patch_of_meant entry hexport hsites hsame)

/-- Where what a pass has written reads back as it was meant, a second run leaves it as it is. -/
theorem output_again (pass : Pass) (entry path : Path) (source : Text) (script : Script)
    (hparse : Script.parse path source = .ok script) (hback : pass.Legible entry path source) :
    pass.Settles entry path source := by
  intro hsome
  by_cases hsame : pass.output entry path source = source
  · rw [hsame, hsame]
  · cases hparse' : Script.parse path (pass.output entry path source) with
    | error cause => simp [hparse', Except.toOption] at hsome
    | ok script' => exact (hback script script' hparse hparse' hsame).output_eq hparse'

/-- Whether a text and what a pass makes of it can be parsed, and are related as trees. -/
def rereads (pass : Pass) (entry path : Path) (source : Text)
    (related : Script → Script → Bool) : Bool :=
  (Script.parse path source).toOption.any fun script =>
    (Script.parse path (pass.output entry path source)).toOption.any (related script)

theorem of_rereads {pass : Pass} {entry path : Path} {source : Text}
    {related : Script → Script → Bool} (h : pass.rereads entry path source related = true)
    (hrelated : ∀ script script', related script script' = true → ReadsBack pass script script') :
    (∃ script, Script.parse path source = .ok script) ∧ pass.Legible entry path source := by
  obtain ⟨script, hparse, h⟩ := exists_ok_of_any h
  obtain ⟨script', hparse', h⟩ := exists_ok_of_any h
  refine ⟨⟨script, hparse⟩, ?_⟩
  intro script₁ script₁' hparse₁ hparse₁' _
  rw [hparse] at hparse₁
  rw [hparse'] at hparse₁'
  cases hparse₁
  cases hparse₁'
  exact hrelated script script' h

/-- The page configuration pass has moved the one configuration that there was. -/
def pageConfigRead (script script' : Script) : Bool :=
  match script.program.defaultExport with
  | .component c =>
    match PageConfig.sites script.program c with
    | [site] => decide (script'.program.Same (PageConfig.meant site.remove script.program))
    | _ => false
  | _ => false

theorem readsBack_of_pageConfigRead {script script' : Script}
    (h : pageConfigRead script script' = true) : ReadsBack pageConfigPass script script' := by
  rw [pageConfigRead] at h
  split at h
  · rename_i c hexport
    split at h
    · rename_i site hsites
      exact .pageConfig hexport hsites (of_decide_eq_true h)
    · cases h
  · cases h

def routedText : Text :=
  "class A \x7b f() \x7b return this.$router \x7d \x7d".toList

def importingText : Text :=
  "import Api, \x7b Component, b \x7d from '@tarojs/taro'\nApi.memo(Component, b)".toList

def configuredText : Text :=
  "export default class A \x7b config = \x7b a: 1 \x7d \x7d".toList

set_option maxRecDepth 100000 in
/-- Each of the passes has something to do, and what it writes reads back. -/
theorem output_again_each :
    let entry : Path := ⟨"src/app.js"⟩
    let path : Path := ⟨"src/a.js"⟩
    (routerPass.output entry path routedText ≠ routedText ∧
      routerPass.Settles entry path routedText) ∧
    (uiImportsPass.output entry path importingText ≠ importingText ∧
      uiImportsPass.Settles entry path importingText) ∧
    pageConfigPass.output entry path configuredText ≠ configuredText ∧
      pageConfigPass.Settles entry path configuredText := by
  intro entry path
  have hrouter : routerPass.rereads entry path routedText (fun script script' =>
      decide (script'.program.Same (Router.meant script.program))) = true ∧
      routerPass.output entry path routedText ≠ routedText := by
    -- the evaluation runs over a list of characters, not over the bytes of a literal
    unfold routedText
    rw [String.toList_ofList]
    decide +kernel
  have himports : uiImportsPass.rereads entry path importingText (fun script script' =>
      decide (script'.program.Same (UiImports.meant script)) &&
        UiImports.mainName? script' == none) = true ∧
      uiImportsPass.output entry path importingText ≠ importingText := by
    unfold importingText
    rw [String.toList_ofList]
    decide +kernel
  have hconfig : pageConfigPass.rereads entry path configuredText pageConfigRead = true ∧
      pageConfigPass.output entry path configuredText ≠ configuredText := by
    unfold configuredText
    rw [String.toList_ofList]
    decide +kernel
  obtain ⟨⟨script₁, hparse₁⟩, hlegible₁⟩ := of_rereads hrouter.1 fun script script' h =>
    .router (of_decide_eq_true h)
  obtain ⟨⟨script₂, hparse₂⟩, hlegible₂⟩ := of_rereads himports.1 fun script script' h => by
    rw [Bool.and_eq_true, beq_iff_eq] at h
    refine .uiImports (of_decide_eq_true h.1) ?_
    intro main hmain
    rw [h.2] at hmain
    cases hmain
  obtain ⟨⟨script₃, hparse₃⟩, hlegible₃⟩ :=
    of_rereads hconfig.1 fun _ _ => readsBack_of_pageConfigRead
  exact ⟨⟨hrouter.2, output_again _ entry path _ script₁ hparse₁ hlegible₁⟩,
    ⟨himports.2, output_again _ entry path _ script₂ hparse₂ hlegible₂⟩,
    hconfig.2, output_again _ entry path _ script₃ hparse₃ hlegible₃⟩

set_option maxRecDepth 100000 in
/-- An imported name in quotes is written without them, and part of it is then a name of its own; or
a line that was a regular expression becomes one with the line above. In none of these cases does
the text settle. -/
theorem output_again_differs :
    let entry : Path := ⟨"src/app.js"⟩
    let path : Path := ⟨"src/a.js"⟩
    ¬ uiImportsPass.Settles entry path
      "import \x7b Component, \"a, memo\" as b \x7d from '@tarojs/taro'".toList ∧
    ¬ routerPass.Settles entry path
      ("import \x7b \"x \x7d from 'y'; class B \x7b f() \x7b this.$router \x7d \x7d //\" as c " ++
        "\x7d from '@tarojs/taro'\nclass A \x7b f() \x7b this.$router \x7d \x7d").toList ∧
    ¬ pageConfigPass.Settles entry path
      ("function I() \x7b\x7d\nx = a\nI.config = \x7b\x7d;\n/b; I.config = \x7b\x7d; c /d\n" ++
        "export default I").toList := by
  intro entry path
  rw [String.toList_append, String.toList_append]
  repeat rw [String.toList_ofList]
  decide +kernel

end Pass

end Codemod
