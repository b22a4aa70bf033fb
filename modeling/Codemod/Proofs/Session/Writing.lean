import Codemod.Proofs.Session.Journey

/-!
# Codemod.Proofs.Session.Writing

A session that is no dry run makes a journey.

`Session.Accounts` says what a session keeps of a journey: the files that were rewritten are among
its changed files, and its new files are those of the log, in order. How the files of a pass are
split among workers does not matter to it.

* `runPasses_journey`: running passes is the journey to each of their files.
* `commitGroups_journey`: so is committing the control files of a project.
-/

namespace Codemod

namespace Done

/-- What the result for a file says of a wish that was granted. -/
def change (d : Done) : Path × List Path :=
  (d.path, d.artifacts)

end Done

namespace WorkerView

variable {view : WorkerView} {disk : Disk} {path : Path}

/-- The view of a session that is no dry run. -/
structure Writing (view : WorkerView) : Prop where
  dryRun : view.dryRun = false
  overrides : view.overrides = []

theorem Writing.load (h : view.Writing) (disk : Disk) (path : Path) :
    view.load disk path = disk.read path := by
  rw [WorkerView.load, h.overrides]
  rfl

theorem Writing.wish (h : view.Writing) (disk : Disk) (path : Path) :
    view.wish disk path = (Visit.ofPass view.entry view.pass path).wish disk := by
  rw [WorkerView.wish, h.load]
  rfl

theorem Writing.settled (h : view.Writing) {loc : Location} (hs : disk.Sits path loc) :
    view.settled disk path =
      if disk.Accepts path (view.wish disk path) then
        (.ok (), disk.grant loc (view.wish disk path))
      else (.error (.artifactExists path path.configModule), disk) := by
  rw [view.settled_eq hs, h.dryRun, if_neg Bool.false_ne_true]

theorem process_journey (hkeep : view.pass.KeepsToFile) (hw : view.Writing)
    (hwf : disk.WellFormed) (hscript : disk.IsScript path) (report : WorkerReport) :
    ∃ log result,
      Journey disk [Visit.ofPass view.entry view.pass path] log
        (view.process path report disk).2 ∧
      (view.process path report disk).1.results = report.results ++ [result] ∧
      result.change?.toList = log.map Done.change := by
  obtain ⟨loc, hs, -⟩ := hscript.sits hwf
  rw [process_eq hkeep]
  simp only [add, results_note]
  have hwish := hw.wish disk path
  by_cases hnothing : view.wish disk path = .nothing
  · refine ⟨[], _, ?_, rfl, ?_⟩
    · rw [settled_of_nothing hnothing]
      exact .idle hscript (.inl (hwish ▸ hnothing)) (.stop disk)
    · rw [change?_answer_of_nothing hnothing]
      rfl
  · obtain ⟨source, hsource, houtcome⟩ := outcome_answer hnothing
    by_cases haccepts : disk.Accepts path (view.wish disk path)
    · refine ⟨[⟨path, view.wish disk path⟩], _, ?_, rfl, ?_⟩
      · have hbusy : ¬ (Visit.ofPass view.entry view.pass path).Idle disk :=
          Visit.not_idle_iff.mpr ⟨hwish ▸ hnothing, hwish ▸ haccepts⟩
        rw [hw.settled hs, if_pos haccepts, hwish]
        exact .write hscript hs hbusy (.stop _)
      · rw [FileResult.change?, houtcome, hw.settled hs, if_pos haccepts, path_answer]
        simp only [outcome, if_neg hnothing]
        rfl
    · refine ⟨[], _, ?_, rfl, ?_⟩
      · rw [hw.settled hs, if_neg haccepts]
        exact .idle hscript (.inr (hwish ▸ haccepts)) (.stop disk)
      · rw [FileResult.change?, houtcome, hw.settled hs, if_neg haccepts]
        rfl

theorem processAll_journey (hkeep : view.pass.KeepsToFile) (hw : view.Writing)
    (hwf : disk.WellFormed) {files : List Path} (hfiles : ∀ p ∈ files, disk.IsScript p)
    (report : WorkerReport) :
    ∃ log results,
      Journey disk (files.map (Visit.ofPass view.entry view.pass)) log
        (view.processAll files report disk).2 ∧
      (view.processAll files report disk).1.results = report.results ++ results ∧
      results.filterMap FileResult.change? = log.map Done.change := by
  induction files generalizing report disk with
  | nil => exact ⟨[], [], .stop disk, by simp [processAll], rfl⟩
  | cons path files ih =>
    obtain ⟨log, result, hfirst, hresult, hchange⟩ :=
      process_journey hkeep hw hwf (hfiles path List.mem_cons_self) report
    obtain ⟨log', results, hrest, hresults, hchanges⟩ :=
      ih (hfirst.wellFormed hwf)
        (fun p hp => hfirst.grows.isScript (hfiles p (List.mem_cons_of_mem path hp)))
        (view.process path report disk).1
    refine ⟨log ++ log', result :: results, hfirst.append hrest, ?_, ?_⟩
    · rw [processAll, hresults, hresult, List.append_assoc, List.singleton_append]
    · rw [List.map_append, ← hchange, ← hchanges]
      cases hc : result.change? <;> simp [hc]

theorem processChunks_journey (hkeep : view.pass.KeepsToFile) (hw : view.Writing)
    (hwf : disk.WellFormed) (chunks : List (List Path))
    (hfiles : ∀ p ∈ chunks.flatten, disk.IsScript p) :
    ∃ log,
      Journey disk (chunks.flatten.map (Visit.ofPass view.entry view.pass)) log
        (view.processChunks chunks disk).2 ∧
      ((view.processChunks chunks disk).1.flatMap WorkerReport.results).filterMap
        FileResult.change? = log.map Done.change := by
  induction chunks generalizing disk with
  | nil => exact ⟨[], .stop disk, rfl⟩
  | cons chunk chunks ih =>
    obtain ⟨log, results, hfirst, hresults, hchanges⟩ :=
      processAll_journey hkeep hw hwf
        (fun p hp => hfiles p (List.mem_append_left _ hp)) WorkerReport.empty
    obtain ⟨log', hrest, hchanges'⟩ :=
      ih (hfirst.wellFormed hwf) fun p hp =>
        hfirst.grows.isScript (hfiles p (List.mem_append_right _ hp))
    refine ⟨log ++ log', ?_, ?_⟩
    · rw [List.flatten_cons, List.map_append]
      exact hfirst.append hrest
    · have hempty : (view.processAll chunk .empty disk).1.results = results := by
        rw [hresults]
        rfl
      rw [processChunks, List.flatMap_cons, hempty, List.filterMap_append, hchanges, hchanges',
        List.map_append]

end WorkerView

theorem flatten_chunksWithin {α : Type} (size fuel : Nat) (xs : List α) :
    (chunksWithin size fuel xs).flatten = xs := by
  induction fuel generalizing xs with
  | zero => cases xs <;> simp [chunksWithin]
  | succ fuel ih =>
    cases xs with
    | nil => rfl
    | cons x xs => rw [chunksWithin, List.flatten_cons, ih, List.take_append_drop]

theorem flatten_chunks {α : Type} (workers : Nat) (xs : List α) :
    (chunks workers xs).flatten = xs :=
  flatten_chunksWithin _ _ _

namespace Session

variable {s s' s'' : Session} {disk : Disk} {log log' : List Done}

/-- A session that is no dry run. -/
structure Writing (s : Session) : Prop where
  dryRun : s.dryRun = false
  overrides : s.overrides = []

theorem mem_insertPath_of_mem {p q : Path} {ps : List Path} (h : q ∈ ps) :
    q ∈ insertPath p ps := by
  induction ps with
  | nil => cases h
  | cons r ps ih =>
    rw [insertPath]
    split
    · exact h
    · split
      · exact List.mem_cons_of_mem p h
      · rcases List.mem_cons.mp h with rfl | h
        · exact List.mem_cons_self
        · exact List.mem_cons_of_mem r (ih h)

theorem mem_insertPath {p q : Path} {ps : List Path} (h : q ∈ insertPath p ps) :
    q = p ∨ q ∈ ps := by
  induction ps with
  | nil => exact .inl (List.mem_singleton.mp h)
  | cons r ps ih =>
    rw [insertPath] at h
    split at h
    · exact .inr h
    · split at h
      · exact List.mem_cons.mp h
      · rcases List.mem_cons.mp h with rfl | h
        · exact .inr List.mem_cons_self
        · exact (ih h).imp_right (List.mem_cons_of_mem r)

theorem exists_same_insertPath (p : Path) (ps : List Path) :
    ∃ q ∈ insertPath p ps, q.same p = true := by
  induction ps with
  | nil => exact ⟨p, List.mem_cons_self, p.same_refl⟩
  | cons r ps ih =>
    rw [insertPath]
    split
    · rename_i hsame
      exact ⟨r, List.mem_cons_self, by rw [Path.same_comm, hsame]⟩
    · split
      · exact ⟨p, List.mem_cons_self, p.same_refl⟩
      · obtain ⟨q, hq, hsame⟩ := ih
        exact ⟨q, List.mem_cons_of_mem r hq, hsame⟩

/-- What a session has kept of a journey. -/
structure Accounts (s s' : Session) (log : List Done) : Prop where
  writing : s.Writing → s'.Writing
  passes : s'.passes = s.passes
  kept : ∀ q ∈ s.changed, q ∈ s'.changed
  /-- Whatever was rewritten has changed. -/
  changed : ∀ d ∈ log, d.wish.rewritten.isSome = true → ∃ q ∈ s'.changed, q.same d.path = true
  /-- Only what was written has changed. -/
  only : ∀ q ∈ s'.changed, q ∈ s.changed ∨ ∃ d ∈ log, d.path = q
  artifacts : s'.artifacts = s.artifacts ++ log.flatMap Done.artifacts

namespace Accounts

theorem refl (s : Session) : Accounts s s [] where
  writing h := h
  passes := rfl
  kept _ h := h
  changed := nofun
  only _ h := .inl h
  artifacts := by simp

theorem trans (h : Accounts s s' log) (h' : Accounts s' s'' log') :
    Accounts s s'' (log ++ log') where
  writing hw := h'.writing (h.writing hw)
  passes := h'.passes.trans h.passes
  kept q hq := h'.kept q (h.kept q hq)
  changed d hd hrewritten := by
    rcases List.mem_append.mp hd with hd | hd
    · obtain ⟨q, hq, hsame⟩ := h.changed d hd hrewritten
      exact ⟨q, h'.kept q hq, hsame⟩
    · exact h'.changed d hd hrewritten
  only q hq := by
    rcases h'.only q hq with hq | ⟨d, hd, rfl⟩
    · rcases h.only q hq with hq | ⟨d, hd, rfl⟩
      · exact .inl hq
      · exact .inr ⟨d, List.mem_append_left _ hd, rfl⟩
    · exact .inr ⟨d, List.mem_append_right _ hd, rfl⟩
  artifacts := by
    rw [h'.artifacts, h.artifacts, List.flatMap_append, List.append_assoc]

end Accounts

/-- Fields that have nothing to do with files do not count. -/
theorem accounts_of_eq (hdryRun : s'.dryRun = s.dryRun) (hoverrides : s'.overrides = s.overrides)
    (hpasses : s'.passes = s.passes) (hchanged : s'.changed = s.changed)
    (hartifacts : s'.artifacts = s.artifacts) : Accounts s s' [] where
  writing h := ⟨hdryRun.trans h.dryRun, hoverrides.trans h.overrides⟩
  passes := hpasses
  kept q hq := hchanged ▸ hq
  changed := nofun
  only q hq := .inl (hchanged ▸ hq)
  artifacts := by simp [hartifacts]

theorem accounts_setOverride (s : Session) (path : Path) (text : Text) :
    Accounts s (s.setOverride path text) [] := by
  rw [setOverride]
  split
  · rename_i hdry
    exact {
      writing := fun h => absurd hdry (by rw [h.dryRun]; exact Bool.false_ne_true)
      passes := rfl
      kept := fun _ h => h
      changed := nofun
      only := fun _ h => .inl h
      artifacts := by simp }
  · exact .refl s

theorem accounts_of_change {d : Done} (hdryRun : s'.dryRun = s.dryRun)
    (hoverrides : s'.overrides = s.overrides) (hpasses : s'.passes = s.passes)
    (hchanged : s'.changed = insertPath d.path s.changed)
    (hartifacts : s'.artifacts = s.artifacts ++ d.artifacts) : Accounts s s' [d] where
  writing h := ⟨hdryRun.trans h.dryRun, hoverrides.trans h.overrides⟩
  passes := hpasses
  kept q hq := by
    rw [hchanged]
    exact mem_insertPath_of_mem hq
  changed d' hd' _ := by
    rw [List.mem_singleton.mp hd', hchanged]
    exact exists_same_insertPath d.path s.changed
  only q hq := by
    rw [hchanged] at hq
    rcases mem_insertPath hq with rfl | hq
    · exact .inr ⟨d, List.mem_cons_self, rfl⟩
    · exact .inl hq
  artifacts := by simp [hartifacts]

theorem accounts_mergeResult {pass : String} {r : FileResult}
    (h : r.change?.toList = log.map Done.change) : Accounts s (mergeResult pass s r) log := by
  rw [mergeResult]
  cases houtcome : r.outcome with
  | unchanged =>
    have hlog : log = [] := by simpa [FileResult.change?, houtcome] using h.symm
    subst hlog
    exact accounts_of_eq rfl rfl rfl rfl rfl
  | failed fault =>
    have hlog : log = [] := by simpa [FileResult.change?, houtcome] using h.symm
    subst hlog
    exact accounts_of_eq rfl rfl rfl rfl rfl
  | changed contents artifacts =>
    rw [FileResult.change?, houtcome] at h
    obtain ⟨d, rfl, hd⟩ := List.map_eq_singleton_iff.mp h.symm
    obtain ⟨hpath, rfl⟩ := Prod.mk.inj hd
    have hchange : Accounts s
        { s with
          notices := s.notices ++ r.notices.map fun m => ⟨r.path, pass, m⟩
          artifacts := s.artifacts ++ d.artifacts
          changed := insertPath r.path s.changed } [d] :=
      accounts_of_change rfl rfl rfl (by rw [hpath]) rfl
    exact hchange.trans (accounts_setOverride _ r.path contents)

theorem accounts_mergeResults {pass : String} {results : List FileResult}
    (h : results.filterMap FileResult.change? = log.map Done.change) :
    Accounts s (results.foldl (mergeResult pass) s) log := by
  induction results generalizing s log with
  | nil =>
    have hlog : log = [] := by simpa using h.symm
    subst hlog
    exact .refl s
  | cons r results ih =>
    have hsplit : (r :: results).filterMap FileResult.change? =
        r.change?.toList ++ results.filterMap FileResult.change? := by
      cases hc : r.change? <;> simp [hc]
    rw [hsplit] at h
    obtain ⟨log₁, log₂, rfl, h₁, h₂⟩ := List.map_eq_append_iff.mp h.symm
    exact (accounts_mergeResult h₁.symm).trans (ih h₂.symm)

theorem accounts_mergeReports {pass : String} {reports : List WorkerReport}
    (h : (reports.flatMap WorkerReport.results).filterMap FileResult.change? =
      log.map Done.change) :
    Accounts s (reports.foldl (mergeReport pass) s) log := by
  induction reports generalizing s log with
  | nil =>
    have hlog : log = [] := by simpa using h.symm
    subst hlog
    exact .refl s
  | cons report reports ih =>
    rw [List.flatMap_cons, List.filterMap_append] at h
    obtain ⟨log₁, log₂, rfl, h₁, h₂⟩ := List.map_eq_append_iff.mp h.symm
    have hnoted : Accounts s
        { s with tally := s.tally.merge report.tally, observed := s.observed ++ report.observed }
        [] := accounts_of_eq rfl rfl rfl rfl rfl
    have hfirst : Accounts s (mergeReport pass s report) ([] ++ log₁) :=
      hnoted.trans (accounts_mergeResults h₁.symm)
    exact hfirst.trans (ih h₂.symm)

variable {tree pages : List Path}

theorem runPass_journey (entry : Path) {pass : Pass} (hw : s.Writing) (hkeep : pass.KeepsToFile)
    (hwf : disk.WellFormed) {files : List Path} (hfiles : ∀ p ∈ files, disk.IsScript p) :
    ∃ log, Journey disk (files.map (Visit.ofPass entry pass)) log
        (s.runPass pass entry files disk).2 ∧
      Accounts s (s.runPass pass entry files disk).1 log := by
  have hchunks := flatten_chunks s.workers files
  have hview : WorkerView.Writing ⟨pass, entry, s.observed, s.overrides, s.dryRun⟩ :=
    ⟨hw.dryRun, hw.overrides⟩
  obtain ⟨log, hjourney, hchanges⟩ :=
    WorkerView.processChunks_journey hkeep hview hwf (chunks s.workers files)
      (by rw [hchunks]; exact hfiles)
  rw [hchunks] at hjourney
  exact ⟨log, hjourney, accounts_mergeReports hchanges⟩

/-- The visits of passes, in the order in which they are made. -/
def passVisits (entry : Path) (tree pages : List Path) (passes : List Pass) : List Visit :=
  passes.flatMap fun pass => (filesFor pass tree pages).map (Visit.ofPass entry pass)

theorem runPasses_journey (entry : Path) {passes : List Pass} (hw : s.Writing)
    (hkeep : ∀ pass ∈ passes, pass.KeepsToFile) (hwf : disk.WellFormed)
    (htree : ∀ p ∈ tree, disk.IsScript p) (hpages : ∀ p ∈ pages, disk.IsScript p) :
    ∃ log, Journey disk (passVisits entry tree pages passes) log
        (s.runPasses entry tree pages passes disk).2 ∧
      Accounts s (s.runPasses entry tree pages passes disk).1 log := by
  induction passes generalizing s disk with
  | nil => exact ⟨[], .stop disk, .refl s⟩
  | cons pass passes ih =>
    have hfiles : ∀ p ∈ filesFor pass tree pages, disk.IsScript p := by
      rw [filesFor]
      split
      · exact htree
      · exact hpages
    obtain ⟨log, hfirst, haccounts⟩ :=
      runPass_journey entry hw (hkeep pass List.mem_cons_self) hwf hfiles
    obtain ⟨log', hrest, haccounts'⟩ :=
      ih (haccounts.writing hw) (fun p hp => hkeep p (List.mem_cons_of_mem pass hp))
        (hfirst.wellFormed hwf) (fun p hp => hfirst.grows.isScript (htree p hp))
        (fun p hp => hfirst.grows.isScript (hpages p hp))
    exact ⟨log ++ log', hfirst.append hrest, haccounts.trans haccounts'⟩

/-- A run is what its passes do, one after the other. -/
theorem run_eq (s : Session) (project : Project) (disk : Disk) :
    let passed := s.runPasses project.entryFilePath (SourceTree.sources disk project.sourceDir)
      (project.pageFiles disk) s.passes disk
    s.run project disk =
      ({ passed.1 with states := passed.1.passes.map fun _ => .merged }, passed.2) :=
  rfl

theorem accounts_recordCreate (s : Session) (path : Path) (moved : Option Text) :
    Accounts s ((moved.map (PendingWrite.create path.configModule)).toList.foldl recordWrite s)
      [⟨path, ⟨moved, none⟩⟩] := by
  have hnew {s' : Session} (hdryRun : s'.dryRun = s.dryRun)
      (hoverrides : s'.overrides = s.overrides) (hpasses : s'.passes = s.passes)
      (hchanged : s'.changed = s.changed)
      (hartifacts : s'.artifacts = s.artifacts ++ (Wish.mk moved none).artifacts path) :
      Accounts s s' [⟨path, ⟨moved, none⟩⟩] := by
    exact {
      writing := fun h => ⟨hdryRun.trans h.dryRun, hoverrides.trans h.overrides⟩
      passes := hpasses
      kept := fun q hq => hchanged ▸ hq
      only := fun q hq => .inl (hchanged ▸ hq)
      changed := by simp
      artifacts := by simp [hartifacts, Done.artifacts] }
  cases moved with
  | none => exact hnew rfl rfl rfl rfl (by simp [Wish.artifacts])
  | some text =>
    have hrecorded : Accounts s { s with artifacts := s.artifacts ++ [path.configModule] }
        [⟨path, ⟨some text, none⟩⟩] := hnew rfl rfl rfl rfl rfl
    exact hrecorded.trans (accounts_setOverride _ path.configModule text)

theorem accounts_recordOverwrite (s : Session) (path : Path) (rewritten : Option Text) :
    Accounts s ((rewritten.map (PendingWrite.overwrite path)).toList.foldl recordWrite s)
      [⟨path, ⟨none, rewritten⟩⟩] := by
  cases rewritten with
  | none => exact accounts_recordCreate s path none
  | some text =>
    have hrecorded : Accounts s { s with changed := insertPath path s.changed }
        [⟨path, ⟨none, some text⟩⟩] :=
      accounts_of_change rfl rfl rfl rfl (by simp [Done.artifacts, Wish.artifacts])
    exact hrecorded.trans (accounts_setOverride _ path text)

theorem accounts_recordWrites (s : Session) (path : Path) (wish : Wish) :
    Accounts s ((wish.writes path).foldl recordWrite s) [⟨path, wish⟩] := by
  obtain ⟨moved, rewritten⟩ := wish
  rw [Wish.writes, List.foldl_append]
  have h := (accounts_recordCreate s path moved).trans (accounts_recordOverwrite _ path rewritten)
  exact {
    writing := h.writing
    passes := h.passes
    kept := h.kept
    changed := by
      intro d hd hrewritten
      rw [List.mem_singleton.mp hd] at hrewritten ⊢
      exact h.changed ⟨path, ⟨none, rewritten⟩⟩ (by simp) hrewritten
    only := by
      intro q hq
      rcases h.only q hq with hq | ⟨d, hd, rfl⟩
      · exact .inl hq
      · refine .inr ⟨_, List.mem_cons_self, ?_⟩
        simp only [List.singleton_append, List.mem_cons, List.not_mem_nil, or_false] at hd
        rcases hd with rfl | rfl <;> rfl
    artifacts := by
      rw [h.artifacts]
      simp [Done.artifacts, Wish.artifacts] }

theorem commitGroup_journey (hw : s.Writing) (hwf : disk.WellFormed) {owner : Path}
    {writes : List PendingWrite} (hown : OwnGroup disk (owner, writes)) :
    ∃ log, Journey disk [Visit.ofGroup (owner, writes)] log (s.commitGroup owner writes disk).2 ∧
      Accounts s (s.commitGroup owner writes disk).1 log := by
  obtain ⟨hscript, wish, hwrites⟩ := hown
  simp only at hscript hwrites
  subst hwrites
  obtain ⟨loc, hs, -⟩ := hscript.sits hwf
  have hwish : (Visit.ofGroup (owner, wish.writes owner)).wish disk = wish :=
    Wish.ofWrites_writes wish owner
  rw [commitGroup, settle, hw.dryRun, if_neg Bool.false_ne_true, commit_writes hs]
  by_cases hidle : (Visit.ofGroup (owner, wish.writes owner)).Idle disk
  · have hstays := Journey.idle hscript hidle (.stop disk)
    rw [Visit.Idle, hwish] at hidle
    rcases hidle with rfl | hblocked
    · exact ⟨[], hstays, .refl s⟩
    · have hblocked' : ¬ disk.Accepts owner wish := hblocked
      rw [if_neg hblocked']
      exact ⟨[], hstays, accounts_of_eq rfl rfl rfl rfl rfl⟩
  · obtain ⟨-, haccepts⟩ := Visit.not_idle_iff.mp hidle
    rw [hwish] at haccepts
    have haccepts' : disk.Accepts owner wish := haccepts
    rw [if_pos haccepts']
    refine ⟨[⟨owner, wish⟩], ?_, accounts_recordWrites s owner wish⟩
    have hjourney := Journey.write hscript hs hidle (.stop _)
    rw [hwish] at hjourney
    exact hjourney

theorem commitGroups_journey (hw : s.Writing) (hwf : disk.WellFormed)
    {groups : List (Path × List PendingWrite)} (hown : ∀ g ∈ groups, OwnGroup disk g) :
    ∃ log, Journey disk (groups.map Visit.ofGroup) log (s.commitGroups groups disk).2 ∧
      Accounts s (s.commitGroups groups disk).1 log := by
  induction groups generalizing s disk with
  | nil => exact ⟨[], .stop disk, .refl s⟩
  | cons g groups ih =>
    obtain ⟨log, hfirst, haccounts⟩ :=
      commitGroup_journey hw hwf (hown g List.mem_cons_self)
    obtain ⟨log', hrest, haccounts'⟩ :=
      ih (haccounts.writing hw) (hfirst.wellFormed hwf) fun g' hg' =>
        ⟨hfirst.grows.isScript (hown g' (List.mem_cons_of_mem g hg')).isScript,
          (hown g' (List.mem_cons_of_mem g hg')).own⟩
    exact ⟨log ++ log', hfirst.append hrest, haccounts.trans haccounts'⟩

end Session

end Codemod
