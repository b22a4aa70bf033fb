import Codemod.Proofs.Commit
import Codemod.Proofs.Syntax.Parser
import Codemod.Session

/-!
# Codemod.Proofs.Session.Worker

What a worker does with one file.

What a pass asks for is a `Wish`: the text of a configuration module beside the file, and a new
text of the file itself. It depends on the text of the file and on nothing else (`Pass.wish`).

* `process_eq`: a worker commits the wish, and what it reports depends on the text of the file and
  on how the commit went.
* `outcome_answer`, `change?_answer_of_nothing`: the report says which wishes were granted.
-/

namespace Codemod

theorem settle_nothing (dryRun : Bool) (path : Path) (disk : Disk) :
    settle dryRun path (Wish.nothing.writes path) disk = (.ok (), disk) := by
  cases dryRun <;> rfl

theorem settle_writes (dryRun : Bool) {disk : Disk} {path : Path} {loc : Location}
    (hs : disk.Sits path loc) (wish : Wish) :
    settle dryRun path (wish.writes path) disk =
      if disk.Accepts path wish then (.ok (), if dryRun then disk else disk.grant loc wish)
      else (.error (.artifactExists path path.configModule), disk) := by
  rw [settle]
  cases dryRun with
  | true =>
    rw [if_pos rfl, checkTargets_writes]
    split <;> simp
  | false =>
    rw [if_neg Bool.false_ne_true, commit_writes hs]
    simp

namespace Edit

theorem applyAll_nil (source : Text) : applyAll source [] = source :=
  rfl

end Edit

namespace Script

/-- What a patch asks for. -/
def wish (script : Script) (patch : Patch) : Wish where
  moved := patch.artifacts.head?.map (·.contents)
  rewritten := if script.patched patch = script.source then none else some (script.patched patch)

/-- The only file that a patch adds is the configuration module. -/
def Owns (script : Script) (patch : Patch) : Prop :=
  patch.artifacts = [] ∨
    ∃ contents, patch.artifacts = [⟨script.path.configModule, contents⟩]

theorem wish_of_isEmpty {script : Script} {patch : Patch} (h : patch.isEmpty = true) :
    script.wish patch = .nothing := by
  rw [Patch.isEmpty, Bool.and_eq_true, List.isEmpty_iff, List.isEmpty_iff] at h
  rw [wish, patched, h.1, h.2, Edit.applyAll_nil]
  simp [Wish.nothing]

theorem rewritten_getD (script : Script) (patch : Patch) :
    (script.wish patch).rewritten.getD script.source = script.patched patch := by
  rw [wish]
  by_cases h : script.patched patch = script.source
  · simp [h]
  · simp [h]

theorem artifacts_wish {script : Script} {patch : Patch} (h : script.Owns patch) :
    (script.wish patch).artifacts script.path = patch.artifacts.map (·.path) := by
  rcases h with h | ⟨contents, h⟩ <;> simp [Wish.artifacts, wish, h]

end Script

namespace Pass

/-- The only files that a pass adds are configuration modules beside the files it looks at. -/
def KeepsToFile (pass : Pass) : Prop :=
  ∀ entry script patch, pass.patch entry script = .ok patch → script.Owns patch

/-- What a pass asks for, given the text of a file. -/
def wish (pass : Pass) (entry path : Path) : Except Fault Text → Wish
  | .error _ => .nothing
  | .ok source =>
    match Script.parse path source with
    | .error _ => .nothing
    | .ok script =>
      if pass.applies script then
        match pass.patch entry script with
        | .error _ => .nothing
        | .ok patch => script.wish patch
      else .nothing

theorem keepsToFile_of_mem {pass : Pass} (h : pass ∈ standard) : pass.KeepsToFile := by
  intro entry script patch hpatch
  simp only [standard, List.mem_cons, List.not_mem_nil, or_false] at h
  rcases h with rfl | rfl | rfl
  · cases hpatch
    refine .inl ?_
    rw [Router.patch]
    dsimp only
    split <;> rfl
  · cases hpatch
    exact .inl rfl
  · simp only [pageConfigPass, PageConfig.patch] at hpatch
    split at hpatch
    · cases hpatch
      exact .inl rfl
    · split at hpatch
      · cases hpatch
      · cases hpatch
      · cases hpatch
      · split at hpatch
        · cases hpatch
          exact .inl rfl
        · cases hpatch
          exact .inr ⟨_, rfl⟩
        · cases hpatch

end Pass

namespace FileResult

/-- The files that a result says were written: the one it is about, and new ones. -/
def change? (r : FileResult) : Option (Path × List Path) :=
  match r.outcome with
  | .changed _ artifacts => some (r.path, artifacts)
  | .unchanged | .failed _ => none

end FileResult

namespace WorkerView

variable {view view' : WorkerView} {disk disk' : Disk} {path : Path} {report : WorkerReport}

/-- What the pass asks for, as the session sees the file. -/
def wish (view : WorkerView) (disk : Disk) (path : Path) : Wish :=
  view.pass.wish view.entry path (view.load disk path)

/-- How a wish for a text went. -/
def outcome (wish : Wish) (path : Path) (source : Text) : Except Fault Unit → Outcome
  | .ok () => if wish = .nothing then .unchanged
    else .changed (wish.rewritten.getD source) (wish.artifacts path)
  | .error fault => .failed fault

theorem carryOut_eq {script : Script} {patch : Patch} (h : script.Owns patch) :
    view.carryOut script patch disk =
      (⟨script.path, outcome (script.wish patch) script.path script.source
          (settle view.dryRun script.path ((script.wish patch).writes script.path) disk).1,
        patch.notices⟩,
      (settle view.dryRun script.path ((script.wish patch).writes script.path) disk).2) := by
  have hcreates : (patch.artifacts.map fun a => PendingWrite.create a.path a.contents) =
      ((script.wish patch).moved.map (PendingWrite.create script.path.configModule)).toList := by
    rcases h with h | ⟨contents, h⟩ <;> simp [Script.wish, h]
  have hwrites : ((patch.artifacts.map fun a => PendingWrite.create a.path a.contents) ++
      if script.patched patch = script.source then []
      else [.overwrite script.path (script.patched patch)]) =
      (script.wish patch).writes script.path := by
    rw [hcreates, Wish.writes, Script.wish]
    split <;> rfl
  by_cases hnothing : script.wish patch = .nothing
  · have hunchanged : view.carryOut script patch disk =
        (⟨script.path, .unchanged, patch.notices⟩, disk) := by
      rw [carryOut]
      split
      · rfl
      · simp only [hwrites, Wish.writes_eq_nil_iff.mpr hnothing, List.isEmpty_nil, if_true]
    rw [hunchanged, hnothing, settle_nothing]
    rfl
  · have hpatch : patch.isEmpty = false := by
      rw [← Bool.not_eq_true]
      exact fun hempty => hnothing (Script.wish_of_isEmpty hempty)
    have hsome : ((script.wish patch).writes script.path).isEmpty = false := by
      rw [← Bool.not_eq_true, List.isEmpty_iff, Wish.writes_eq_nil_iff]
      exact hnothing
    rw [carryOut]
    simp only [hpatch, hwrites, hsome, Bool.false_eq_true, if_false, List.map_map]
    rw [show (PendingWrite.path ∘ fun a : Artifact => PendingWrite.create a.path a.contents) =
      (·.path) from rfl, ← Script.artifacts_wish h]
    split
    · rename_i hsettle
      simp [hsettle, outcome, hnothing, Script.rewritten_getD]
    · rename_i hsettle
      simp [hsettle, outcome]

/-- The commit that a worker carries out for a file. -/
def settled (view : WorkerView) (disk : Disk) (path : Path) : Except Fault Unit × Disk :=
  settle view.dryRun path ((view.wish disk path).writes path) disk

theorem settled_of_nothing (h : view.wish disk path = .nothing) :
    view.settled disk path = (.ok (), disk) := by
  rw [settled, h, settle_nothing]

theorem settled_eq (view : WorkerView) {loc : Location} (hs : disk.Sits path loc) :
    view.settled disk path =
      if disk.Accepts path (view.wish disk path) then
        (.ok (), if view.dryRun then disk else disk.grant loc (view.wish disk path))
      else (.error (.artifactExists path path.configModule), disk) :=
  settle_writes view.dryRun hs (view.wish disk path)

/-- A report with the features of a file added, if it is parsed for the first time. -/
def note (view : WorkerView) (path : Path) (text : Except Fault Text) (report : WorkerReport) :
    WorkerReport :=
  match text.toOption.bind fun source => (Script.parse path source).toOption with
  | none => report
  | some script =>
    if view.hasObserved path then report else
      { report with
        tally := report.tally.merge (.ofProgram script.program)
        observed := report.observed ++ [path] }

/-- The result for a file, given its text and how the commit went. -/
def answer (view : WorkerView) (path : Path) (text : Except Fault Text)
    (went : Except Fault Unit) : FileResult :=
  match text with
  | .error fault => ⟨path, .failed fault, []⟩
  | .ok source =>
    match Script.parse path source with
    | .error cause => ⟨path, .failed (.parse cause), []⟩
    | .ok script =>
      if view.pass.applies script then
        match view.pass.patch view.entry script with
        | .error fault => ⟨path, .failed fault, []⟩
        | .ok patch => ⟨path, outcome (script.wish patch) path source went, patch.notices⟩
      else ⟨path, .unchanged, []⟩

/-- A report with one more result. -/
def add (report : WorkerReport) (result : FileResult) : WorkerReport :=
  { report with results := report.results ++ [result] }

/-- What a worker does with a file: it commits the wish of the pass, and answers how that went. -/
theorem process_eq (hkeep : view.pass.KeepsToFile) (path : Path) (report : WorkerReport)
    (disk : Disk) :
    view.process path report disk =
      (add (view.note path (view.load disk path) report)
        (view.answer path (view.load disk path) (view.settled disk path).1),
      (view.settled disk path).2) := by
  rw [process]
  cases hload : view.load disk path with
  | error fault =>
    have hwish : view.wish disk path = .nothing := by unfold wish; rw [hload]; rfl
    rw [settled_of_nothing hwish]
    rfl
  | ok source =>
    cases hparse : Script.parse path source with
    | error cause =>
      have hwish : view.wish disk path = .nothing := by
        unfold wish Pass.wish
        simp only [hload, hparse]
      rw [settled_of_nothing hwish]
      unfold answer
      simp [hparse, note, add, Except.toOption]
    | ok script =>
      obtain ⟨rfl, rfl⟩ := Script.path_of_parse hparse
      unfold answer
      simp only [hparse, note, Except.toOption, Option.bind_some]
      by_cases happlies : view.pass.applies script = true
      · cases hpatch : view.pass.patch view.entry script with
        | error fault =>
          have hwish : view.wish disk script.path = .nothing := by
            unfold wish Pass.wish
            simp only [hload, hparse, happlies, hpatch, if_true]
          rw [settled_of_nothing hwish]
          simp [happlies, add]
        | ok patch =>
          have hwish : view.wish disk script.path = script.wish patch := by
            unfold wish Pass.wish
            simp only [hload, hparse, happlies, hpatch, if_true]
          simp only [happlies, if_true, carryOut_eq (hkeep _ _ _ hpatch), settled, hwish]
          rfl
      · have hwish : view.wish disk script.path = .nothing := by
          unfold wish Pass.wish
          simp only [hload, hparse, happlies, if_false, Bool.false_eq_true]
        rw [settled_of_nothing hwish]
        simp [happlies, add]

theorem results_note (text : Except Fault Text) :
    (view.note path text report).results = report.results := by
  rw [note]
  split
  · rfl
  · split <;> rfl

theorem path_answer (text : Except Fault Text) (went : Except Fault Unit) :
    (view.answer path text went).path = path := by
  unfold answer
  split
  · rfl
  · split
    · rfl
    · split
      · split <;> rfl
      · rfl

/-- Whoever has a wish has read the file, and the result says how the wish went. -/
theorem outcome_answer (h : view.wish disk path ≠ .nothing) :
    ∃ source, view.load disk path = .ok source ∧ ∀ went,
      (view.answer path (view.load disk path) went).outcome =
        outcome (view.wish disk path) path source went := by
  unfold wish at h ⊢
  cases hload : view.load disk path with
  | error fault => exact absurd (by rw [hload]; rfl) h
  | ok source =>
    refine ⟨source, rfl, fun went => ?_⟩
    rw [hload] at h
    unfold answer
    unfold Pass.wish at h ⊢
    cases hparse : Script.parse path source with
    | error cause => simp [hparse] at h
    | ok script =>
      by_cases happlies : view.pass.applies script = true
      · cases hpatch : view.pass.patch view.entry script with
        | error fault => simp [hparse, happlies, hpatch] at h
        | ok patch => simp [hparse, happlies, hpatch]
      · simp [hparse, happlies] at h

theorem change?_answer_of_nothing {went : Except Fault Unit}
    (h : view.wish disk path = .nothing) :
    (view.answer path (view.load disk path) went).change? = none := by
  unfold answer
  unfold wish Pass.wish at h
  cases hload : view.load disk path with
  | error fault => rfl
  | ok source =>
    cases hparse : Script.parse path source with
    | error cause => simp [hparse, FileResult.change?]
    | ok script =>
      by_cases happlies : view.pass.applies script = true
      · cases hpatch : view.pass.patch view.entry script with
        | error fault => simp [hparse, happlies, hpatch, FileResult.change?]
        | ok patch =>
          simp only [hload, hparse, happlies, hpatch, if_true] at h
          cases went <;> simp [hparse, happlies, hpatch, h, FileResult.change?, outcome]
      · simp [hparse, happlies, FileResult.change?]

theorem processAll_cons (view : WorkerView) (path : Path) (files : List Path)
    (report : WorkerReport) (disk : Disk) :
    view.processAll (path :: files) report disk =
      view.processAll files (view.process path report disk).1 (view.process path report disk).2 :=
  rfl

theorem processChunks_cons (view : WorkerView) (chunk : List Path) (chunks : List (List Path))
    (disk : Disk) :
    view.processChunks (chunk :: chunks) disk =
      ((view.processAll chunk .empty disk).1 ::
          (view.processChunks chunks (view.processAll chunk .empty disk).2).1,
        (view.processChunks chunks (view.processAll chunk .empty disk).2).2) :=
  rfl

end WorkerView

end Codemod
