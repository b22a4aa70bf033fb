import Codemod.Proofs.Project.Load
import Codemod.Proofs.Session.Chunks
import Mathlib.Data.Finset.Card

/-!
# Codemod.Proofs.Session.Features

The features that a session has counted.

The log of a session is the list of scripts that its workers have parsed, in all passes and all
runs, each as its text was at that moment (`History`). A file comes up in it as often as it was
parsed, perhaps with other features each time. What counts is the first time: `exhibitors` are the
files that have a feature where they come up first, told apart by the components of their paths.

* `card_exhibitors_append`: scripts of different files that are added to a log.
* `History.observed_iff`: a session has observed just the files of its log.
* `History.count_tally`: a session has counted just the exhibitors.
* `History.run`: a whole run is such a history, with the scripts that `runScripts` lists.
-/

namespace Codemod

namespace Tally

theorem count_ofProgram (program : Program) (f : Feature) :
    (ofProgram program).count f = if program.exhibits f then 1 else 0 := by
  rw [ofProgram, Program.features, Feature.all]
  cases f with
  | legacyDecorators =>
    by_cases hd : program.exhibits .legacyDecorators <;>
      by_cases hc : program.exhibits .constEnum <;> simp [hd, hc, count_record]
  | constEnum =>
    by_cases hd : program.exhibits .legacyDecorators <;>
      by_cases hc : program.exhibits .constEnum <;> simp [hd, hc, count_record]

end Tally

/-- The files, by their components, that have the feature where the log comes to them first. -/
def exhibitors (f : Feature) (log : List Script) : Finset (List Path.Component) :=
  (log.map (·.path.components)).toFinset.filter fun key =>
    (log.find? (·.path.components == key)).any (·.program.exhibits f)

/-- Whether the log has come to the file of a path. -/
def known (log : List Script) (path : Path) : Bool :=
  log.any fun script => path.same script.path

theorem mem_exhibitors {f : Feature} {log : List Script} {key : List Path.Component} :
    key ∈ exhibitors f log ↔ ∃ script, log.find? (·.path.components == key) = some script ∧
      script.program.exhibits f = true := by
  rw [exhibitors, Finset.mem_filter, List.mem_toFinset, Option.any_eq_true]
  constructor
  · rintro ⟨-, script, hfind, hexhibits⟩
    exact ⟨script, hfind, hexhibits⟩
  · rintro ⟨script, hfind, hexhibits⟩
    have hkey : script.path.components = key := by simpa using List.find?_some hfind
    exact ⟨List.mem_map.mpr ⟨script, List.mem_of_find?_eq_some hfind, hkey⟩, script, hfind,
      hexhibits⟩

theorem known_eq_isSome (log : List Script) (path : Path) :
    known log path = (log.find? (·.path.components == path.components)).isSome := by
  rw [Bool.eq_iff_iff, known, List.any_eq_true, List.find?_isSome]
  simp only [Path.same, Bool.beq_comm]

theorem known_congr {log : List Script} {p q : Path} (h : p.same q = true) :
    known log p = known log q := by
  rw [Path.same, beq_iff_eq] at h
  rw [known_eq_isSome, known_eq_isSome, h]

theorem known_append (log scripts : List Script) (path : Path) :
    known (log ++ scripts) path = (known log path || known scripts path) :=
  List.any_append

theorem find?_concat {log : List Script} {script : Script} {key : List Path.Component}
    (h : key ≠ script.path.components ∨ known log script.path = true) :
    (log ++ [script]).find? (·.path.components == key) =
      log.find? (·.path.components == key) := by
  rw [List.find?_append]
  by_cases hkey : script.path.components = key
  · subst hkey
    rw [known_eq_isSome] at h
    obtain ⟨found, hfound⟩ := Option.isSome_iff_exists.mp (h.resolve_left fun hne => hne rfl)
    rw [hfound, Option.some_or]
  · simp [hkey]

theorem exhibitors_concat_of_known {f : Feature} {log : List Script} {script : Script}
    (h : known log script.path = true) : exhibitors f (log ++ [script]) = exhibitors f log := by
  ext key
  rw [mem_exhibitors, mem_exhibitors, find?_concat (.inr h)]

theorem exhibitors_concat_of_not_known {f : Feature} {log : List Script} {script : Script}
    (h : known log script.path = false) :
    exhibitors f (log ++ [script]) =
      if script.program.exhibits f then insert script.path.components (exhibitors f log)
      else exhibitors f log := by
  rw [known_eq_isSome, Option.isSome_eq_false_iff, Option.isNone_iff_eq_none] at h
  ext key
  by_cases hkey : key = script.path.components
  · subst hkey
    by_cases hexhibits : script.program.exhibits f = true
    · simp [mem_exhibitors, h, hexhibits]
    · simp [mem_exhibitors, h, hexhibits]
  · have hfind : (log ++ [script]).find? (·.path.components == key) =
        log.find? (·.path.components == key) := find?_concat (.inl hkey)
    by_cases hexhibits : script.program.exhibits f = true
    · simp only [mem_exhibitors, hfind, hexhibits, if_true, Finset.mem_insert, hkey, false_or]
    · simp only [mem_exhibitors, hfind, hexhibits, if_false, Bool.false_eq_true]

theorem card_exhibitors_concat (f : Feature) (log : List Script) (script : Script) :
    (exhibitors f (log ++ [script])).card = (exhibitors f log).card +
      if known log script.path then 0 else if script.program.exhibits f then 1 else 0 := by
  cases h : known log script.path with
  | true => simp [exhibitors_concat_of_known h]
  | false =>
    have hnew : script.path.components ∉ exhibitors f log := by
      intro hmem
      obtain ⟨found, hfind, -⟩ := mem_exhibitors.mp hmem
      rw [known_eq_isSome, hfind] at h
      cases h
    rw [exhibitors_concat_of_not_known h]
    by_cases hexhibits : script.program.exhibits f = true
    · simp [hexhibits, Finset.card_insert_of_notMem hnew]
    · simp [hexhibits]

/-- Of the scripts of different files, those of files that have not come up yet count. -/
theorem card_exhibitors_append (f : Feature) (log scripts : List Script)
    (hdistinct : scripts.Pairwise fun s s' => s.path.same s'.path = false) :
    (exhibitors f (log ++ scripts)).card = (exhibitors f log).card +
      (scripts.filter fun s => !known log s.path).countP (·.program.exhibits f) := by
  induction scripts generalizing log with
  | nil => simp
  | cons script scripts ih =>
    obtain ⟨hfirst, hrest⟩ := List.pairwise_cons.mp hdistinct
    have hknown : ∀ s ∈ scripts, known (log ++ [script]) s.path = known log s.path := by
      intro s hs
      have hother := hfirst s hs
      rw [Path.same_comm] at hother
      simp [known, hother]
    have hfilter : (scripts.filter fun s => !known (log ++ [script]) s.path) =
        scripts.filter fun s => !known log s.path := by
      refine List.filter_congr fun s hs => ?_
      rw [hknown s hs]
    have hsplit : log ++ script :: scripts = (log ++ [script]) ++ scripts := by simp
    rw [hsplit, ih _ hrest, hfilter, card_exhibitors_concat]
    cases h : known log script.path with
    | true => simp [h]
    | false =>
      by_cases hexhibits : script.program.exhibits f = true
      · simp [h, hexhibits]
        omega
      · simp [h, hexhibits]

namespace WorkerView

variable (view : WorkerView)

/-- The script of a file as a worker sees it, if it can be read and parsed. -/
def script? (disk : Disk) (path : Path) : Option Script :=
  (view.load disk path).toOption.bind fun source => (Script.parse path source).toOption

/-- The scripts that a worker parses on its way through files. -/
def scripts : List Path → Disk → List Script
  | [], _ => []
  | path :: files, disk =>
    (view.script? disk path).toList ++ scripts files (view.process path .empty disk).2

theorem path_of_script? {view : WorkerView} {disk : Disk} {path : Path} {script : Script}
    (h : view.script? disk path = some script) : script.path = path := by
  rw [script?, Option.bind_eq_some_iff] at h
  obtain ⟨source, -, hparse⟩ := h
  cases hscript : Script.parse path source with
  | error cause =>
    rw [hscript] at hparse
    cases hparse
  | ok found =>
    rw [hscript] at hparse
    cases hparse
    exact (Script.path_of_parse hscript).1

theorem sublist_scripts (files : List Path) (disk : Disk) :
    ((view.scripts files disk).map (·.path)).Sublist files := by
  induction files generalizing disk with
  | nil => exact List.Sublist.refl []
  | cons path files ih =>
    rw [scripts, List.map_append]
    cases hscript : view.script? disk path with
    | none => exact (ih _).cons path
    | some script =>
      simp only [Option.toList_some, List.map_singleton, path_of_script? hscript,
        List.singleton_append]
      exact (ih _).cons_cons path

theorem scripts_pairwise {files : List Path} (h : files.Pairwise fun p q => p.same q = false)
    (disk : Disk) :
    (view.scripts files disk).Pairwise fun s s' => s.path.same s'.path = false :=
  List.pairwise_map.mp (h.sublist (view.sublist_scripts files disk))

/-- A worker takes note of a file that parses and was not seen in an earlier pass. -/
theorem process_features (path : Path) (disk : Disk) (f : Feature) :
    (view.process path .empty disk).1.observed =
        ((view.script? disk path).toList.filter fun s => !view.hasObserved s.path).map (·.path) ∧
      (view.process path .empty disk).1.tally.count f =
        ((view.script? disk path).toList.filter fun s => !view.hasObserved s.path).countP
          (·.program.exhibits f) := by
  rw [process, script?]
  cases hload : view.load disk path with
  | error fault => simp [WorkerReport.empty, Except.toOption]
  | ok source =>
    cases hparse : Script.parse path source with
    | error cause => simp [hparse, WorkerReport.empty, Except.toOption]
    | ok script =>
      have hpath := (Script.path_of_parse hparse).1
      by_cases happlies : view.pass.applies script = true
      · cases hpatch : view.pass.patch view.entry script <;>
          by_cases hseen : view.hasObserved path = true <;>
          simp [hparse, hpath, happlies, hpatch, hseen, WorkerReport.empty, Except.toOption,
            Tally.count_ofProgram, List.countP_singleton]
      · by_cases hseen : view.hasObserved path = true <;>
          simp [hparse, hpath, happlies, hseen, WorkerReport.empty, Except.toOption,
            Tally.count_ofProgram, List.countP_singleton]

theorem processAll_features (files : List Path) (disk : Disk) (f : Feature) :
    (view.processAll files .empty disk).1.observed =
        ((view.scripts files disk).filter fun s => !view.hasObserved s.path).map (·.path) ∧
      (view.processAll files .empty disk).1.tally.count f =
        ((view.scripts files disk).filter fun s => !view.hasObserved s.path).countP
          (·.program.exhibits f) := by
  induction files generalizing disk with
  | nil => simp [processAll, scripts, WorkerReport.empty]
  | cons path files ih =>
    obtain ⟨hobserved, htally⟩ := view.process_features path disk f
    obtain ⟨hobserved', htally'⟩ := ih (view.process path .empty disk).2
    rw [processAll_cons, processAll_append, scripts, List.filter_append, List.map_append,
      List.countP_append]
    simp only [WorkerReport.append, Tally.count_merge, hobserved, hobserved', htally, htally']
    exact ⟨trivial, trivial⟩

end WorkerView

namespace Session

variable {s s' : Session} {log : List Script}

theorem features_mergeResults (pass : String) (s : Session) (results : List FileResult) :
    (results.foldl (mergeResult pass) s).tally = s.tally ∧
      (results.foldl (mergeResult pass) s).observed = s.observed := by
  induction results generalizing s with
  | nil => exact ⟨rfl, rfl⟩
  | cons r results ih =>
    obtain ⟨htally, hobserved⟩ := ih (mergeResult pass s r)
    rw [List.foldl_cons, htally, hobserved, mergeResult_eq]
    exact ⟨rfl, rfl⟩

/-- A pass counts the scripts that it parses, other than those of files observed before. -/
theorem runPass_features (s : Session) (pass : Pass) (entry : Path) (files : List Path)
    (disk : Disk) (f : Feature) :
    (s.runPass pass entry files disk).1.observed = s.observed ++
        (((s.view pass entry).scripts files disk).filter
          fun script => !s.observed.any script.path.same).map (·.path) ∧
      (s.runPass pass entry files disk).1.tally.count f = s.tally.count f +
        (((s.view pass entry).scripts files disk).filter
          fun script => !s.observed.any script.path.same).countP (·.program.exhibits f) := by
  obtain ⟨hobserved, htally⟩ := (s.view pass entry).processAll_features files disk f
  obtain ⟨hkept, hkept'⟩ := features_mergeResults pass.name s
    ((s.view pass entry).processAll files .empty disk).1.results
  rw [runPass_eq, mergeReport_eq]
  simp only [notes, Tally.count_merge, hkept, hkept', hobserved, htally]
  exact ⟨rfl, rfl⟩

/-- The scripts that passes parse. -/
def passScripts (s : Session) (entry : Path) (tree pages : List Path) :
    List Pass → Disk → List Script
  | [], _ => []
  | pass :: passes, disk =>
    (s.view pass entry).scripts (filesFor pass tree pages) disk ++
      passScripts (s.runPass pass entry (filesFor pass tree pages) disk).1 entry tree pages passes
        (s.runPass pass entry (filesFor pass tree pages) disk).2

/-- The scripts that a run parses. -/
def runScripts (s : Session) (project : Project) (disk : Disk) : List Script :=
  s.passScripts project.entryFilePath (SourceTree.sources disk project.sourceDir)
    (project.pageFiles disk) s.passes disk

/-- What may happen to a session, and the scripts that are parsed on the way. The disk may be
another one for each pass. -/
inductive History : List Script → Session → Prop where
  | start (passes : List Pass) (options : Options) (available : Nat) :
      History [] (.start passes options available)
  | pass {log : List Script} {s : Session} (pass : Pass) (entry : Path) {files : List Path}
      (disk : Disk) : History log s → files.Pairwise (fun p q => p.same q = false) →
      History (log ++ (s.view pass entry).scripts files disk) (s.runPass pass entry files disk).1
  | other {log : List Script} {s s' : Session} : History log s → s'.tally = s.tally →
      s'.observed = s.observed → History log s'

namespace History

theorem observed_iff (h : History log s) (path : Path) :
    s.observed.any path.same = known log path := by
  induction h generalizing path with
  | start passes options available => rfl
  | other _ _ hobserved ih => rw [hobserved, ih]
  | @pass log s pass entry files disk _ _ ih =>
    rw [(runPass_features s pass entry files disk .constEnum).1, List.any_append, ih, known_append]
    cases hknown : known log path with
    | true => rw [Bool.true_or, Bool.true_or]
    | false =>
      rw [Bool.false_or, Bool.false_or, Bool.eq_iff_iff, known]
      simp only [List.any_eq_true, List.mem_map, List.mem_filter]
      constructor
      · rintro ⟨_, ⟨script, ⟨hscript, -⟩, rfl⟩, hsame⟩
        exact ⟨script, hscript, hsame⟩
      · -- the file has not come up before, so its script was not left out
        rintro ⟨script, hscript, hsame⟩
        refine ⟨script.path, ⟨script, ⟨hscript, ?_⟩, rfl⟩, hsame⟩
        rw [ih, ← known_congr hsame, hknown]
        rfl

/-- For each feature a session has counted the files that had it when they were first parsed. -/
theorem count_tally (h : History log s) (f : Feature) :
    s.tally.count f = (exhibitors f log).card := by
  induction h with
  | start passes options available => exact Tally.count_empty f
  | other _ htally _ ih => rw [htally, ih]
  | @pass log s pass entry files disk hhistory hfiles ih =>
    have hdistinct := (s.view pass entry).scripts_pairwise hfiles disk
    have hfresh : (((s.view pass entry).scripts files disk).filter
        fun script => !s.observed.any script.path.same) =
        ((s.view pass entry).scripts files disk).filter fun script => !known log script.path := by
      refine List.filter_congr fun script _ => ?_
      rw [hhistory.observed_iff]
    rw [(runPass_features s pass entry files disk f).2, card_exhibitors_append f log _ hdistinct,
      ih, hfresh]

theorem runPasses {tree pages : List Path} (entry : Path) (passes : List Pass) (disk : Disk)
    (htree : tree.Pairwise fun p q => p.same q = false)
    (hpages : pages.Pairwise fun p q => p.same q = false) (h : History log s) :
    History (log ++ s.passScripts entry tree pages passes disk)
      (s.runPasses entry tree pages passes disk).1 := by
  induction passes generalizing log s disk with
  | nil => simpa [passScripts, Session.runPasses] using h
  | cons pass passes ih =>
    have hfiles : (filesFor pass tree pages).Pairwise fun p q => p.same q = false := by
      rw [filesFor]
      split
      · exact htree
      · exact hpages
    have hrest := ih (s.runPass pass entry (filesFor pass tree pages) disk).2
      (h.pass pass entry disk hfiles)
    rwa [List.append_assoc] at hrest

theorem run (project : Project) (disk : Disk)
    (hsources : (SourceTree.sources disk project.sourceDir).Pairwise fun p q => p.same q = false)
    (h : History log s) :
    History (log ++ s.runScripts project disk) (s.run project disk).1 :=
  (h.runPasses project.entryFilePath s.passes disk hsources
    (Project.pageFiles_pairwise project disk)).other rfl rfl

end History

/-- A file with a decorator, or with what it was replaced by, and one that never parses. -/
def decoratedDisk (text : String) : Disk :=
  (((Disk.bare []).makeDirAt ["src"]).putAt ["src", "a.ts"] (.text text.toList)).putAt
    ["src", "b.ts"] (.text "(".toList)

/-- Three passes and a second run over a file that has got another feature by then. -/
theorem History.count_tally_twice :
    let project : Project := ⟨⟨"."⟩, ⟨"config/index.js"⟩, "src", ⟨"src/app.js"⟩, []⟩
    let s := Session.start Pass.standard .standard 2
    let s' := (s.run project (decoratedDisk "@d class A \x7b\x7d")).1
    let s'' := (s'.run project (decoratedDisk "const enum E \x7b\x7d")).1
    s''.tally.count .legacyDecorators = 1 ∧ s''.tally.count .constEnum = 0 := by
  intro project s s' s''
  have hfirst := (History.start Pass.standard .standard 2).run project
    (decoratedDisk "@d class A \x7b\x7d") (by decide +kernel)
  have hsecond := hfirst.run project (decoratedDisk "const enum E \x7b\x7d") (by decide +kernel)
  constructor
  · rw [History.count_tally hsecond]
    decide +kernel
  · rw [History.count_tally hsecond]
    decide +kernel

end Session

end Codemod
