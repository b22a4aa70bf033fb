import Codemod.Proofs.Disk
import Codemod.Proofs.Project.BuildConfig
import Codemod.Proofs.Syntax.Parser
import Codemod.Proofs.Syntax.Spelling
import Codemod.Proofs.Text.Frame

/-!
# Codemod.Proofs.Project.BuildConfig.Frame

What the edits of the build configuration leave as it was.

Everything that is added goes between the braces of the configuration object, and it is put in
between what is there. There is one exception: an object of constants without a property is written
anew, so what stands between its braces is lost. That is harmless as long as it is blank
(`BuildConfig.BlankConstants`).
-/

namespace Codemod

open Lexer (isBreak isGap isGapText)

namespace Text

/-- What is left of a text without its blanks. -/
def solid (s : Text) : Text :=
  s.filter fun c => !(isBreak c || isGap c)

theorem solid_append (s t : Text) : solid (s ++ t) = solid s ++ solid t :=
  List.filter_append ..

theorem solid_eq_nil {s : Text} (h : isGapText s = true) : solid s = [] := by
  rw [solid, List.filter_eq_nil_iff]
  intro c hc
  have hblank := List.all_eq_true.mp h c hc
  simp only [hblank]
  exact Bool.false_ne_true

variable {s : Text} {n : Nat} {c : Char}

theorem HasAt.boundary_after (h : s.HasAt n c) : s.Boundary (n + c.utf8Size) := by
  obtain ⟨front, back, rfl, rfl⟩ := h
  exact ⟨front ++ [c], back, by simp, by simp⟩

theorem HasBefore.boundary_before (h : s.HasBefore n c) : s.Boundary (n - c.utf8Size) := by
  obtain ⟨front, back, rfl, rfl⟩ := h
  exact ⟨front, c :: back, rfl, by simp⟩

theorem HasAt.slice (h : s.HasAt n c) : s.slice n (n + c.utf8Size) = [c] := by
  obtain ⟨front, back, rfl, rfl⟩ := h
  exact slice_of_split (show front ++ c :: back = front ++ ([c] ++ back) from rfl) rfl (by simp)

theorem HasBefore.slice (h : s.HasBefore n c) : s.slice (n - c.utf8Size) n = [c] := by
  obtain ⟨front, back, rfl, rfl⟩ := h
  exact slice_of_split (show front ++ c :: back = front ++ ([c] ++ back) from rfl) (by simp)
    (by simp)

end Text

namespace ObjectLiteral

variable {o : ObjectLiteral} {source : Text}

/-- The text between the braces. -/
def inside (o : ObjectLiteral) (source : Text) : Text :=
  source.slice (o.span.start + 1) (o.span.stop - 1)

theorem braces (h : o.node.Tidy source) : source.Boundary (o.span.start + 1) ∧
    source.Boundary (o.span.stop - 1) ∧ o.span.start + 1 ≤ o.span.stop - 1 :=
  ⟨h.arranged.1.boundary_after, h.arranged.2.1.boundary_before, h.arranged.2.2.le⟩

theorem text_eq (h : o.node.Tidy source) :
    o.span.text source = '\x7b' :: (o.inside source ++ ['\x7d']) := by
  obtain ⟨hopen, hclose, hle⟩ := braces h
  have hfirst : source.slice o.span.start (o.span.start + 1) = ['\x7b'] := h.arranged.1.slice
  have hlast : source.slice (o.span.stop - 1) o.span.stop = ['\x7d'] := h.arranged.2.1.slice
  have hstart : source.Boundary o.span.start := h.sharp.opens.boundary
  have hstop : source.Boundary o.span.stop := h.sharp.closes.boundary
  rw [Span.text, ← Text.slice_append_slice hstart hopen hstop (by omega) (by omega),
    ← Text.slice_append_slice hopen hclose hstop hle (by omega), hfirst, hlast]
  rfl

/-- What is added to an object with a property goes between its braces. -/
theorem append_within (h : o.node.Tidy source) (hne : o.properties ≠ []) (entry : Text) :
    o.span.start + 1 ≤ (o.append source entry).span.start ∧
      (o.append source entry).span.stop ≤ o.span.stop - 1 := by
  rcases append_place h entry with ⟨hnil, -⟩ | ⟨last, q, hlast, hspan, hle, hstop, -⟩
  · exact absurd hnil hne
  · have hmem : last ∈ o.properties := List.mem_of_getLast? hlast
    have hstart := (h.arranged.2.2.within last hmem last (Node.mem_postorder_self last)).1
    have hlt := ((Node.tidy_iff.mp h).2 last hmem).sharp.lt
    rw [hspan]
    exact ⟨show o.span.start + 1 ≤ q by omega, hstop⟩

/-- Only blanks are lost where a property is added, if an object without properties is blank
between its braces. -/
theorem solid_sublist_append (h : o.node.Tidy source) (entry : Text)
    (hblank : o.properties = [] → isGapText (o.inside source) = true) :
    (Text.solid ((o.append source entry).span.text source)).Sublist
      (Text.solid (o.append source entry).text) := by
  rcases append_place h entry with ⟨hnil, hspan⟩ | ⟨last, q, -, hspan, -⟩
  · have hlast : o.properties.getLast? = none := by rw [hnil]; rfl
    have hbraces : Text.solid ('\x7b' :: (o.inside source ++ ['\x7d'])) = ['\x7b', '\x7d'] := by
      rw [← List.singleton_append, Text.solid_append, Text.solid_append,
        Text.solid_eq_nil (hblank hnil)]
      rfl
    obtain ⟨middle, hmiddle⟩ : ∃ middle,
        (o.append source entry).text = ['\x7b'] ++ (middle ++ ['\x7d']) := by
      refine ⟨'\n' :: (source.indentAt o.span.start ++ "  ".toList ++ entry ++ ['\n'] ++
        source.indentAt o.span.start), ?_⟩
      simp [append, hlast, Edit.replace]
    rw [hspan, text_eq h, hbraces, hmiddle, Text.solid_append, Text.solid_append]
    exact (List.Sublist.refl ['\x7b']).append (List.sublist_append_right _ ['\x7d'])
  · rw [hspan, Span.text, Text.slice_self]
    exact List.nil_sublist _

end ObjectLiteral

namespace BuildConfig

variable {source : Text} {p : Program} {config : ObjectLiteral} {root : String}

/-- The object of constants, if they are written as one. -/
def constants? (config : ObjectLiteral) : Option ObjectLiteral :=
  (config.get? "defineConstants").bind fun value => value.bare.object?

/-- If the object of constants has no properties, nothing but blanks is between its braces. -/
def BlankConstants (source : Text) (config : ObjectLiteral) : Prop :=
  ∀ object ∈ constants? config, object.properties = [] →
    isGapText (object.inside source) = true

instance (source : Text) (config : ObjectLiteral) : Decidable (BlankConstants source config) :=
  inferInstanceAs (Decidable (∀ object ∈ constants? config, _))

/-- Every edit goes between the braces of the configuration, and only an object of constants
without properties loses something. -/
theorem edit_frame (h : p.Laid source) (hfind : find? p = some (config, root)) (style : Style)
    (options : Options) {e : Edit} (he : e ∈ edits source style options config) :
    (config.span.start + 1 ≤ e.span.start ∧ e.span.stop ≤ config.span.stop - 1) ∧
      (BlankConstants source config →
        (Text.solid (e.span.text source)).Sublist (Text.solid e.text)) := by
  obtain ⟨hhas, root, hroot⟩ := has_of_find? hfind
  have hconfig := h.tidy_of_has hhas
  have hne : config.properties ≠ [] := by
    obtain ⟨q, hq, -⟩ := ObjectLiteral.mem_of_get? hroot
    exact List.ne_nil_of_mem hq
  obtain ⟨inner, entries, heq, hcases⟩ := edits_cases source style options config
  rw [heq] at he
  rcases List.mem_append.mp he with he | he
  · rcases hcases with rfl | ⟨value, object, text, hget, hbare, rfl⟩
    · cases he
    · rw [List.mem_singleton.mp he]
      -- the object of constants is part of a property
      obtain ⟨q, hq, hvalue⟩ := ObjectLiteral.mem_of_get? hget
      have hmem : object.node ∈ q.postorder := by
        have hbare' := Node.bare_mem_postorder value
        rw [hbare] at hbare'
        exact Node.mem_postorder.mpr (.inr ⟨value, hvalue, hbare'⟩)
      have hconstants : constants? config = some object := by
        rw [constants?, hget, Option.bind_some, hbare]
        rfl
      have hobject := ((Node.tidy_iff.mp hconfig).2 q hq).of_mem hmem
      have hwithin := hconfig.arranged.2.2.within q hq _ hmem
      have hinside := ObjectLiteral.append_inside hobject text
      exact ⟨⟨Nat.le_trans hwithin.1 hinside.1, Nat.le_trans hinside.2 hwithin.2⟩,
        fun hblank => ObjectLiteral.solid_sublist_append hobject text (hblank object hconstants)⟩
  · obtain ⟨entry, -, rfl⟩ := List.mem_map.mp he
    exact ⟨ObjectLiteral.append_within hconfig hne entry, fun _ =>
      ObjectLiteral.solid_sublist_append hconfig entry fun hnil => absurd hnil hne⟩

/-- The build configuration changes between the braces of its configuration object and nowhere
else. All that is not blank is still there, in its order, as long as an object of constants without
properties has nothing else between its braces. -/
theorem edits_frame {path : Path} {script : Script} (hparse : Script.parse path source = .ok script)
    (hfind : find? script.program = some (config, root)) (style : Style) (options : Options) :
    let text := Edit.applyAll source (edits source style options config)
    source.HasAt config.span.start '\x7b' ∧ source.HasBefore config.span.stop '\x7d' ∧
      (∃ middle, text = source.before (config.span.start + 1) ++
        (middle ++ source.after (config.span.stop - 1))) ∧
      (BlankConstants source config → (Text.solid source).Sublist (Text.solid text)) := by
  obtain ⟨rfl, hlaid⟩ := Script.parse_laid hparse
  have hconfig := hlaid.tidy_of_has (has_of_find? hfind).1
  obtain ⟨hopen, hclose, hle⟩ := ObjectLiteral.braces hconfig
  have hfits := (edits_lossless hlaid hfind style options).fits
  have hframe {e : Edit} := edit_frame hlaid hfind style options (e := e)
  exact ⟨hconfig.arranged.1, hconfig.arranged.2.1,
    Edit.applyAll_within hopen hclose hle hfits fun e he => (hframe he).1,
    fun hblank => Edit.filter_sublist_applyAll hfits fun e he => (hframe he).2 hblank⟩

/-- A configuration with comments, constants without properties and a comma behind its last
property. -/
def sparseText : Text :=
  ("export default \x7b // a, b\n  sourceRoot: 'src',\n  defineConstants: \x7b \x7d, /* c */\n" ++
    "\x7d // d\n").toList

set_option maxRecDepth 100000 in
theorem edits_frame_sparse :
    ∃ script config, Script.parse ⟨"config/index.js"⟩ sparseText = .ok script ∧
      find? script.program = some (config, "src") ∧ BlankConstants sparseText config ∧
      let text := Edit.applyAll sparseText (edits sparseText script.style .standard config)
      text = ("export default \x7b // a, b\n  sourceRoot: 'src',\n  defineConstants: \x7b\n" ++
        "    'process.env.TARO_ENV': JSON.stringify(process.env.TARO_ENV)\n  \x7d,\n" ++
        "  framework: 'react', /* c */\n\x7d // d\n").toList ∧
      sparseText.HasAt config.span.start '\x7b' ∧ sparseText.HasBefore config.span.stop '\x7d' ∧
      (∃ middle, text = sparseText.before (config.span.start + 1) ++
        (middle ++ sparseText.after (config.span.stop - 1))) ∧
      (Text.solid sparseText).Sublist (Text.solid text) := by
  have hcheck : (Script.parse ⟨"config/index.js"⟩ sparseText).toOption.any (fun script =>
      (find? script.program).any fun found => found.2 == "src" &&
        decide (BlankConstants sparseText found.1) &&
        Edit.applyAll sparseText (edits sparseText script.style .standard found.1) ==
          ("export default \x7b // a, b\n  sourceRoot: 'src',\n  defineConstants: \x7b\n" ++
            "    'process.env.TARO_ENV': JSON.stringify(process.env.TARO_ENV)\n  \x7d,\n" ++
            "  framework: 'react', /* c */\n\x7d // d\n").toList) = true := by
    unfold sparseText
    repeat rw [String.toList_append]
    repeat rw [String.toList_ofList]
    decide +kernel
  obtain ⟨script, hparse, hcheck⟩ := exists_ok_of_any hcheck
  obtain ⟨⟨config, root⟩, hfind, hcheck⟩ := (Option.any_eq_true ..).mp hcheck
  rw [Bool.and_eq_true, Bool.and_eq_true, beq_iff_eq, beq_iff_eq, decide_eq_true_eq] at hcheck
  obtain ⟨⟨rfl, hblank⟩, htext⟩ := hcheck
  obtain ⟨hopen, hclose, hmiddle, hsolid⟩ := edits_frame hparse hfind script.style .standard
  exact ⟨script, config, hparse, hfind, hblank, htext, hopen, hclose, hmiddle, hsolid hblank⟩

set_option maxRecDepth 100000 in
/-- A comment in an object of constants without properties is lost. -/
theorem edits_lose_comment :
    let source : Text :=
      "x = \x7b sourceRoot: 'src', framework: '', defineConstants: \x7b /* c */ \x7d \x7d".toList
    ∃ script config, Script.parse ⟨"config/index.js"⟩ source = .ok script ∧
      find? script.program = some (config, "src") ∧
      ¬ (Text.solid source).Sublist
        (Text.solid (Edit.applyAll source (edits source script.style .standard config))) := by
  intro source
  have hcheck : (Script.parse ⟨"config/index.js"⟩ source).toOption.any (fun script =>
      (find? script.program).any fun found => found.2 == "src" &&
        !decide ((Text.solid source).Sublist (Text.solid
          (Edit.applyAll source (edits source script.style .standard found.1))))) = true := by
    unfold source
    rw [String.toList_ofList]
    decide +kernel
  obtain ⟨script, hparse, hcheck⟩ := exists_ok_of_any hcheck
  obtain ⟨⟨config, root⟩, hfind, hcheck⟩ := (Option.any_eq_true ..).mp hcheck
  rw [Bool.and_eq_true, beq_iff_eq, Bool.not_eq_true', decide_eq_false_iff_not] at hcheck
  obtain ⟨rfl, hlost⟩ := hcheck
  exact ⟨script, config, hparse, hfind, hlost⟩

end BuildConfig

end Codemod
