import Codemod.Proofs.Session.Mirror

/-!
# Codemod.Proofs.Session.DryRun

A dry run reports what the run that it stands for reports.

Both sessions are led side by side, the dry one on the disk as it is and the other one on the disk
that it writes to, and the first mirrors the second. Within a pass the overrides stay as they were
when it began, so it matters that no file is worked on twice in a pass.

* `process_mirror`, `processAll_mirror`, `processChunks_mirror`: one file, one chunk, all chunks.
* `runPasses_mirror`, `commitGroups_mirror`: the two sessions stay the same, up to the overrides.
-/

namespace Codemod

/-- The overrides with the texts that results report. -/
def overlays (overrides : List (Path × Text)) (results : List FileResult) : List (Path × Text) :=
  results.foldl (fun overrides r =>
    match r.outcome with
    | .changed contents _ => overlay overrides r.path contents
    | .unchanged | .failed _ => overrides) overrides

/-- The new files that results report. -/
def listed (results : List FileResult) : List Path :=
  (results.filterMap FileResult.change?).flatMap (·.2)

theorem overlays_append (overrides : List (Path × Text)) (results results' : List FileResult) :
    overlays overrides (results ++ results') = overlays (overlays overrides results) results' := by
  rw [overlays, List.foldl_append]
  rfl

theorem listed_append (results results' : List FileResult) :
    listed (results ++ results') = listed results ++ listed results' := by
  rw [listed, List.filterMap_append, List.flatMap_append]
  rfl

theorem readOver_overlays {overrides : List (Path × Text)} {results : List FileResult}
    {path : Path} (h : ∀ r ∈ results, r.path.same path = false) (disk : Disk) :
    readOver (overlays overrides results) disk path = readOver overrides disk path := by
  induction results generalizing overrides with
  | nil => rfl
  | cons r results ih =>
    have hrest := fun r' hr' => h r' (List.mem_cons_of_mem r hr')
    rw [overlays, List.foldl_cons]
    split
    · exact (ih hrest).trans (by rw [readOver_overlay, h r List.mem_cons_self]; rfl)
    · exact ih hrest
    · exact ih hrest

theorem Disk.Scattered.of_append {disk : Disk} {paths paths' : List Path}
    (h : disk.Scattered (paths ++ paths')) : disk.Scattered paths :=
  (List.pairwise_append.mp h).1

namespace WorkerView

variable {view : WorkerView} {work changed artifacts : List Path} {disk disk' : Disk} {path : Path}
  {past : List FileResult}

/-- The view of the run that a dry run stands for. -/
def writing (view : WorkerView) : WorkerView :=
  { view with overrides := [], dryRun := false }

theorem writing_writing (view : WorkerView) : view.writing.Writing :=
  ⟨rfl, rfl⟩

/-- The result for a file. -/
def result (view : WorkerView) (disk : Disk) (path : Path) : FileResult :=
  view.answer path (view.load disk path) (view.settled disk path).1

theorem settled_of_dryRun (hdry : view.dryRun = true) (disk : Disk) (path : Path) :
    view.settled disk path =
      (if disk.Accepts path (view.wish disk path) then .ok ()
        else .error (.artifactExists path path.configModule), disk) := by
  rw [settled, settle, hdry, if_pos rfl, checkTargets_writes]

theorem process_dryRun (hkeep : view.pass.KeepsToFile) (hdry : view.dryRun = true) (path : Path)
    (report : WorkerReport) (disk : Disk) :
    (view.process path report disk).2 = disk ∧
      (view.process path report disk).1.results = report.results ++ [view.result disk path] := by
  rw [process_eq hkeep]
  refine ⟨by rw [settled_of_dryRun hdry], ?_⟩
  rw [add, results_note]
  rfl

theorem processAll_dryRun (hkeep : view.pass.KeepsToFile) (hdry : view.dryRun = true)
    (files : List Path) (report : WorkerReport) (disk : Disk) :
    (view.processAll files report disk).2 = disk ∧
      (view.processAll files report disk).1.results =
        report.results ++ files.map (view.result disk) := by
  induction files generalizing report with
  | nil => simp [processAll]
  | cons path files ih =>
    obtain ⟨hdisk, hresults⟩ := process_dryRun hkeep hdry path report disk
    obtain ⟨hdisk', hresults'⟩ := ih (view.process path report disk).1
    rw [processAll_cons, hdisk]
    exact ⟨hdisk', by rw [hresults', hresults]; simp⟩

theorem processChunks_dryRun (hkeep : view.pass.KeepsToFile) (hdry : view.dryRun = true)
    (chunks : List (List Path)) (disk : Disk) :
    (view.processChunks chunks disk).2 = disk ∧
      (view.processChunks chunks disk).1.flatMap WorkerReport.results =
        chunks.flatten.map (view.result disk) := by
  induction chunks with
  | nil => exact ⟨rfl, rfl⟩
  | cons chunk chunks ih =>
    obtain ⟨hdisk, hresults⟩ := processAll_dryRun hkeep hdry chunk .empty disk
    rw [processChunks_cons, hdisk]
    refine ⟨ih.1, ?_⟩
    rw [List.flatMap_cons, ih.2, hresults]
    simp [WorkerReport.empty]

theorem overlays_of_change?_none (overrides : List (Path × Text)) (past : List FileResult)
    {r : FileResult} (h : r.change? = none) :
    overlays overrides (past ++ [r]) = overlays overrides past ∧
      listed (past ++ [r]) = listed past := by
  rw [overlays_append, listed_append]
  constructor
  · unfold FileResult.change? at h
    cases houtcome : r.outcome with
    | changed contents artifacts => simp [houtcome] at h
    | unchanged => simp [overlays, houtcome]
    | failed fault => simp [overlays, houtcome]
  · simp [listed, h]

theorem overlays_of_changed (overrides : List (Path × Text)) (past : List FileResult)
    {r : FileResult} {contents : Text} {artifacts : List Path}
    (h : r.outcome = .changed contents artifacts) :
    overlays overrides (past ++ [r]) = overlay (overlays overrides past) r.path contents ∧
      listed (past ++ [r]) = listed past ++ artifacts := by
  rw [overlays_append, listed_append]
  constructor
  · simp [overlays, h]
  · simp [listed, FileResult.change?, h]

/-- A dry run says of a file what the other run says, and goes on mirroring it. -/
theorem process_mirror (hkeep : view.pass.KeepsToFile) (hdry : view.dryRun = true)
    (hwf : disk.WellFormed) (hwork : Workable disk work changed) (hpath : path ∈ work)
    (hchanged : (view.result disk path).change?.isSome = true → ∃ c ∈ changed, c.same path = true)
    (hfresh : ∀ r ∈ past, r.path.same path = false)
    (h : Mirror work disk (overlays view.overrides past) (artifacts ++ listed past) disk')
    (hscattered : disk.Scattered (artifacts ++ listed (past ++ [view.result disk path])))
    (report : WorkerReport) :
    (view.writing.process path report disk').1 = (view.process path report disk).1 ∧
      Mirror work disk (overlays view.overrides (past ++ [view.result disk path]))
        (artifacts ++ listed (past ++ [view.result disk path]))
        (view.writing.process path report disk').2 := by
  obtain ⟨loc, hs, hat⟩ := (hwork.isScript path hpath).sits hwf
  have hs' := hs.of_sameDirs h.sameDirs
  have hload : view.writing.load disk' path = view.load disk path := by
    rw [view.writing_writing.load, ← h.texts path hpath, readOver_overlays hfresh]
    rfl
  have hwish : view.writing.wish disk' path = view.wish disk path := by
    rw [wish, hload]
    rfl
  have hkeep' : view.writing.pass.KeepsToFile := hkeep
  -- the report depends on the text and on how the commit went
  have hreport (hwent : (view.writing.settled disk' path).1 = (view.settled disk path).1) :
      (view.writing.process path report disk').1 = (view.process path report disk).1 := by
    rw [process_eq hkeep, process_eq hkeep', hload, hwent]
    rfl
  have hdisk : (view.writing.process path report disk').2 =
      (view.writing.settled disk' path).2 := by
    rw [process_eq hkeep']
  rw [hdisk]
  by_cases hnothing : view.wish disk path = .nothing
  · have hnone : (view.result disk path).change? = none := change?_answer_of_nothing hnothing
    obtain ⟨hoverlays, hlisted⟩ := overlays_of_change?_none view.overrides past hnone
    rw [hoverlays, hlisted]
    have hsettled := settled_of_nothing (hwish.trans hnothing)
    rw [hsettled]
    exact ⟨hreport (by rw [hsettled, settled_of_nothing hnothing]), h⟩
  · obtain ⟨source, hsource, houtcome⟩ := outcome_answer hnothing
    have hsettled := settled_of_dryRun hdry disk path
    have hsettled' := view.writing_writing.settled hs'
    rw [hwish] at hsettled'
    by_cases haccepts : disk.Accepts path (view.wish disk path)
    · rw [if_pos haccepts] at hsettled
      have hresult : (view.result disk path).outcome =
          .changed ((view.wish disk path).rewritten.getD source)
            ((view.wish disk path).artifacts path) := by
        rw [result, houtcome, hsettled]
        simp [outcome, hnothing]
      obtain ⟨hoverlays, hlisted⟩ := overlays_of_changed view.overrides past hresult
      rw [result, path_answer, ← result] at hoverlays
      rw [hlisted, ← List.append_assoc] at hscattered
      have haccepts' := (h.accepts_iff hs fun _ => hscattered).mpr haccepts
      rw [if_pos haccepts'] at hsettled'
      rw [hoverlays, hlisted, hsettled', ← List.append_assoc]
      have hchange : (view.result disk path).change?.isSome = true := by
        rw [FileResult.change?, hresult]
        rfl
      refine ⟨hreport (by rw [hsettled', hsettled]),
        h.grant hwork hpath hs haccepts' (fun _ => hchanged hchange) ?_⟩
      have hread : disk'.read path = .ok source := by
        rw [← view.writing_writing.load, hload, hsource]
      exact fun q hq => h.overlay_getD hwork hpath hread q hq
    · rw [if_neg haccepts] at hsettled
      have haccepts' : ¬ disk'.Accepts path (view.wish disk path) :=
        fun hno => haccepts ((h.accepts_iff hs fun hyes => absurd hyes haccepts).mp hno)
      rw [if_neg haccepts'] at hsettled'
      have hnone : (view.result disk path).change? = none := by
        rw [FileResult.change?, result, houtcome, hsettled]
        rfl
      obtain ⟨hoverlays, hlisted⟩ := overlays_of_change?_none view.overrides past hnone
      rw [hoverlays, hlisted, hsettled']
      exact ⟨hreport (by rw [hsettled', hsettled]), h⟩

theorem processAll_mirror (hkeep : view.pass.KeepsToFile) (hdry : view.dryRun = true)
    (hwf : disk.WellFormed) (hwork : Workable disk work changed) {files : List Path}
    (hfiles : ∀ p ∈ files, p ∈ work)
    (hchanged : ∀ p ∈ files, (view.result disk p).change?.isSome = true →
      ∃ c ∈ changed, c.same p = true)
    (hpairwise : files.Pairwise fun p q => p.same q = false)
    (hfresh : ∀ r ∈ past, ∀ p ∈ files, r.path.same p = false)
    (h : Mirror work disk (overlays view.overrides past) (artifacts ++ listed past) disk')
    (hscattered : disk.Scattered (artifacts ++ listed (past ++ files.map (view.result disk))))
    (report : WorkerReport) :
    (view.writing.processAll files report disk').1 = (view.processAll files report disk).1 ∧
      Mirror work disk (overlays view.overrides (past ++ files.map (view.result disk)))
        (artifacts ++ listed (past ++ files.map (view.result disk)))
        (view.writing.processAll files report disk').2 := by
  induction files generalizing past report disk' with
  | nil => exact ⟨rfl, by simpa [processAll] using h⟩
  | cons path files ih =>
    have hsplit : past ++ (path :: files).map (view.result disk) =
        (past ++ [view.result disk path]) ++ files.map (view.result disk) := by simp
    rw [hsplit] at hscattered ⊢
    have hfirst : disk.Scattered (artifacts ++ listed (past ++ [view.result disk path])) := by
      rw [listed_append, ← List.append_assoc] at hscattered
      exact hscattered.of_append
    obtain ⟨hreport, hmirror⟩ := process_mirror hkeep hdry hwf hwork
      (hfiles path List.mem_cons_self) (hchanged path List.mem_cons_self)
      (fun r hr => hfresh r hr path List.mem_cons_self) h hfirst report
    obtain ⟨hapart, hpairwise'⟩ := List.pairwise_cons.mp hpairwise
    have hdisk := (process_dryRun hkeep hdry path report disk).1
    rw [processAll_cons, processAll_cons, hreport, hdisk]
    refine ih (fun p hp => hfiles p (List.mem_cons_of_mem path hp))
      (fun p hp => hchanged p (List.mem_cons_of_mem path hp)) hpairwise' ?_ hmirror hscattered
      (view.process path report disk).1
    intro r hr p hp
    rcases List.mem_append.mp hr with hr | hr
    · exact hfresh r hr p (List.mem_cons_of_mem path hp)
    · rw [List.mem_singleton.mp hr, result, path_answer]
      exact hapart p hp

theorem processChunks_mirror (hkeep : view.pass.KeepsToFile) (hdry : view.dryRun = true)
    (hwf : disk.WellFormed) (hwork : Workable disk work changed) {chunks : List (List Path)}
    (hfiles : ∀ p ∈ chunks.flatten, p ∈ work)
    (hchanged : ∀ p ∈ chunks.flatten, (view.result disk p).change?.isSome = true →
      ∃ c ∈ changed, c.same p = true)
    (hpairwise : chunks.flatten.Pairwise fun p q => p.same q = false)
    (hfresh : ∀ r ∈ past, ∀ p ∈ chunks.flatten, r.path.same p = false)
    (h : Mirror work disk (overlays view.overrides past) (artifacts ++ listed past) disk')
    (hscattered : disk.Scattered
      (artifacts ++ listed (past ++ chunks.flatten.map (view.result disk)))) :
    (view.writing.processChunks chunks disk').1 = (view.processChunks chunks disk).1 ∧
      Mirror work disk (overlays view.overrides (past ++ chunks.flatten.map (view.result disk)))
        (artifacts ++ listed (past ++ chunks.flatten.map (view.result disk)))
        (view.writing.processChunks chunks disk').2 := by
  induction chunks generalizing past disk' with
  | nil => exact ⟨rfl, by simpa [processChunks] using h⟩
  | cons chunk chunks ih =>
    have hsplit : past ++ (chunk :: chunks).flatten.map (view.result disk) =
        (past ++ chunk.map (view.result disk)) ++ chunks.flatten.map (view.result disk) := by
      simp
    rw [hsplit] at hscattered ⊢
    rw [List.flatten_cons] at hfiles hchanged hpairwise hfresh
    obtain ⟨hpairwise₁, hpairwise₂, hapart⟩ := List.pairwise_append.mp hpairwise
    have hfirst : disk.Scattered (artifacts ++ listed (past ++ chunk.map (view.result disk))) := by
      rw [listed_append, ← List.append_assoc] at hscattered
      exact hscattered.of_append
    obtain ⟨hreport, hmirror⟩ := processAll_mirror hkeep hdry hwf hwork
      (fun p hp => hfiles p (List.mem_append_left _ hp))
      (fun p hp => hchanged p (List.mem_append_left _ hp)) hpairwise₁
      (fun r hr p hp => hfresh r hr p (List.mem_append_left _ hp)) h hfirst WorkerReport.empty
    have hdisk := (processAll_dryRun hkeep hdry chunk .empty disk).1
    have hrest := ih (fun p hp => hfiles p (List.mem_append_right _ hp))
      (fun p hp => hchanged p (List.mem_append_right _ hp)) hpairwise₂ (by
      intro r hr p hp
      rcases List.mem_append.mp hr with hr | hr
      · exact hfresh r hr p (List.mem_append_right _ hp)
      · obtain ⟨q, hq, rfl⟩ := List.mem_map.mp hr
        rw [result, path_answer]
        exact hapart q hq p hp) hmirror hscattered
    rw [processChunks_cons, processChunks_cons, hreport, hdisk, hrest.1]
    exact ⟨rfl, hrest.2⟩

end WorkerView

namespace Session

variable {s : Session} {work changed : List Path} {disk disk' : Disk}

/-- The session of the run that a dry run stands for. -/
def writing (s : Session) : Session :=
  { s with overrides := [], dryRun := false }

/-- A session that is a dry run, beside the disk of the run that it stands for. -/
structure Mirrors (s : Session) (work : List Path) (disk disk' : Disk) : Prop where
  dryRun : s.dryRun = true
  mirror : Mirror work disk s.overrides s.artifacts disk'

theorem mergeResult_writing (pass : String) (s : Session) (r : FileResult) :
    mergeResult pass s.writing r = (mergeResult pass s r).writing := by
  rw [mergeResult, mergeResult]
  cases r.outcome with
  | unchanged => rfl
  | failed fault => rfl
  | changed contents artifacts =>
    simp only [setOverride, writing, Bool.false_eq_true, if_false]
    split <;> rfl

theorem mergeReports_writing (pass : String) (s : Session) (reports : List WorkerReport) :
    reports.foldl (mergeReport pass) s.writing = (reports.foldl (mergeReport pass) s).writing := by
  have hresults (s : Session) (results : List FileResult) :
      results.foldl (mergeResult pass) s.writing =
        (results.foldl (mergeResult pass) s).writing := by
    induction results generalizing s with
    | nil => rfl
    | cons r results ih => rw [List.foldl_cons, mergeResult_writing, ih, List.foldl_cons]
  induction reports generalizing s with
  | nil => rfl
  | cons report reports ih =>
    have hreport : mergeReport pass s.writing report = (mergeReport pass s report).writing :=
      hresults { s with
        tally := s.tally.merge report.tally, observed := s.observed ++ report.observed }
        report.results
    rw [List.foldl_cons, hreport, ih, List.foldl_cons]

/-- A dry run has taken in results. -/
structure Takes (s s' : Session) (results : List FileResult) : Prop where
  dryRun : s'.dryRun = true
  passes : s'.passes = s.passes
  overrides : s'.overrides = overlays s.overrides results
  artifacts : s'.artifacts = s.artifacts ++ listed results
  kept : ∀ c ∈ s.changed, c ∈ s'.changed
  changed : ∀ r ∈ results, r.change?.isSome = true → ∃ c ∈ s'.changed, c.same r.path = true

theorem Takes.nil (hdry : s.dryRun = true) : Takes s s [] :=
  ⟨hdry, rfl, rfl, by simp [listed], fun _ hc => hc, nofun⟩

theorem Takes.append {s' s'' : Session} {results results' : List FileResult}
    (h : Takes s s' results) (h' : Takes s' s'' results') : Takes s s'' (results ++ results') where
  dryRun := h'.dryRun
  passes := h'.passes.trans h.passes
  overrides := by rw [h'.overrides, h.overrides, overlays_append]
  artifacts := by rw [h'.artifacts, h.artifacts, List.append_assoc, listed_append]
  kept c hc := h'.kept c (h.kept c hc)
  changed r hr hchange := by
    rcases List.mem_append.mp hr with hr | hr
    · obtain ⟨c, hc, hsame⟩ := h.changed r hr hchange
      exact ⟨c, h'.kept c hc, hsame⟩
    · exact h'.changed r hr hchange

theorem takes_mergeResult (pass : String) (hdry : s.dryRun = true) (r : FileResult) :
    Takes s (mergeResult pass s r) [r] := by
  rw [mergeResult]
  have hnone (h : r.change? = none) (hmem : ∃ q ∈ [r], q.change?.isSome = true) : False := by
    obtain ⟨q, hq, hchange⟩ := hmem
    rw [List.mem_singleton.mp hq, h] at hchange
    cases hchange
  cases houtcome : r.outcome with
  | unchanged =>
    have hchange : r.change? = none := by rw [FileResult.change?, houtcome]
    exact ⟨hdry, rfl, by simp [overlays, houtcome], by simp [listed, hchange], fun _ hc => hc,
      fun q hq h => (hnone hchange ⟨q, hq, h⟩).elim⟩
  | failed fault =>
    have hchange : r.change? = none := by rw [FileResult.change?, houtcome]
    exact ⟨hdry, rfl, by simp [skip, overlays, houtcome], by simp [skip, listed, hchange],
      fun _ hc => hc, fun q hq h => (hnone hchange ⟨q, hq, h⟩).elim⟩
  | changed contents artifacts =>
    simp only [setOverride, hdry, if_true]
    refine ⟨rfl, rfl, by simp [overlays, overlay, houtcome],
      by simp [listed, FileResult.change?, houtcome], fun _ hc => mem_insertPath_of_mem hc, ?_⟩
    intro q hq _
    rw [List.mem_singleton.mp hq]
    exact exists_same_insertPath r.path s.changed

theorem takes_mergeResults (pass : String) (hdry : s.dryRun = true) (results : List FileResult) :
    Takes s (results.foldl (mergeResult pass) s) results := by
  induction results generalizing s with
  | nil => exact .nil hdry
  | cons r results ih =>
    have hfirst := takes_mergeResult pass hdry r
    exact hfirst.append (ih hfirst.dryRun)

theorem takes_mergeReports (pass : String) (hdry : s.dryRun = true)
    (reports : List WorkerReport) :
    Takes s (reports.foldl (mergeReport pass) s) (reports.flatMap WorkerReport.results) := by
  induction reports generalizing s with
  | nil => exact .nil hdry
  | cons report reports ih =>
    have hnoted : Takes s { s with
        tally := s.tally.merge report.tally
        observed := s.observed ++ report.observed } [] :=
      ⟨hdry, rfl, rfl, by simp [listed], fun _ hc => hc, nofun⟩
    have hfirst : Takes s (mergeReport pass s report) report.results :=
      hnoted.append (takes_mergeResults pass hnoted.dryRun report.results)
    rw [List.flatMap_cons]
    exact hfirst.append (ih hfirst.dryRun)

/-- A dry run has gone on. -/
structure GoesOn (s s' : Session) : Prop where
  dryRun : s'.dryRun = true
  passes : s'.passes = s.passes
  artifacts : s.artifacts <+: s'.artifacts
  kept : ∀ c ∈ s.changed, c ∈ s'.changed

theorem GoesOn.refl (hdry : s.dryRun = true) : GoesOn s s :=
  ⟨hdry, rfl, List.prefix_rfl, fun _ hc => hc⟩

theorem GoesOn.trans {s' s'' : Session} (h : GoesOn s s') (h' : GoesOn s' s'') : GoesOn s s'' :=
  ⟨h'.dryRun, h'.passes.trans h.passes, h.artifacts.trans h'.artifacts,
    fun c hc => h'.kept c (h.kept c hc)⟩

theorem Takes.goesOn {s' : Session} {results : List FileResult} (h : Takes s s' results) :
    GoesOn s s' :=
  ⟨h.dryRun, h.passes, ⟨_, h.artifacts.symm⟩, h.kept⟩

/-- What a dry run lists stays within these changed files, and its new files are scattered. -/
structure Orderly (s : Session) (disk : Disk) (changed : List Path) : Prop where
  scattered : disk.Scattered s.artifacts
  within : ∀ c ∈ s.changed, c ∈ changed

theorem GoesOn.orderly {s' : Session} (h : GoesOn s s') (horderly : s'.Orderly disk changed) :
    s.Orderly disk changed :=
  ⟨horderly.scattered.sublist h.artifacts.sublist, fun c hc => horderly.within c (h.kept c hc)⟩

variable {pass : Pass} {files : List Path}

theorem runPass_dryRun (hdry : s.dryRun = true) (hkeep : pass.KeepsToFile) (entry : Path)
    (files : List Path) (disk : Disk) :
    (s.runPass pass entry files disk).2 = disk ∧
      GoesOn s (s.runPass pass entry files disk).1 := by
  have hview : WorkerView.dryRun ⟨pass, entry, s.observed, s.overrides, s.dryRun⟩ = true := hdry
  obtain ⟨hdisk, -⟩ := WorkerView.processChunks_dryRun hkeep hview (chunks s.workers files) disk
  exact ⟨hdisk, (takes_mergeReports pass.name hdry _).goesOn⟩

theorem runPass_mirror (h : s.Mirrors work disk disk') (hkeep : pass.KeepsToFile) (entry : Path)
    (hwf : disk.WellFormed) (hwork : Workable disk work changed) (hfiles : ∀ p ∈ files, p ∈ work)
    (hpairwise : files.Pairwise fun p q => p.same q = false)
    (horderly : (s.runPass pass entry files disk).1.Orderly disk changed) :
    (s.writing.runPass pass entry files disk').1 = (s.runPass pass entry files disk).1.writing ∧
      (s.runPass pass entry files disk).1.Mirrors work disk
        (s.writing.runPass pass entry files disk').2 := by
  have hchunks := flatten_chunks s.workers files
  rw [runPass] at horderly ⊢
  rw [runPass]
  generalize hv : WorkerView.mk pass entry s.observed s.overrides s.dryRun = view at *
  have hview : view.dryRun = true := by rw [← hv]; exact h.dryRun
  have hpass : view.pass.KeepsToFile := by rw [← hv]; exact hkeep
  have hoverrides : view.overrides = s.overrides := by rw [← hv]
  have hwriting : WorkerView.mk pass entry s.writing.observed s.writing.overrides
      s.writing.dryRun = view.writing := by rw [← hv]; rfl
  obtain ⟨-, hresults⟩ := WorkerView.processChunks_dryRun hpass hview (chunks s.workers files) disk
  have htakes := takes_mergeReports pass.name h.dryRun
    (view.processChunks (chunks s.workers files) disk).1
  rw [hresults, ← List.nil_append (List.map _ _)] at htakes
  have hbegin : Mirror work disk (overlays view.overrides []) (s.artifacts ++ listed []) disk' := by
    rw [hoverrides]
    simpa [overlays, listed] using h.mirror
  have hchanged : ∀ p ∈ (chunks s.workers files).flatten,
      (view.result disk p).change?.isSome = true → ∃ c ∈ changed, c.same p = true := by
    intro p hp hchange
    obtain ⟨c, hc, hsame⟩ := htakes.changed _ (List.mem_map_of_mem hp) hchange
    rw [WorkerView.result, WorkerView.path_answer] at hsame
    exact ⟨c, horderly.within c hc, hsame⟩
  obtain ⟨hreports, hmirror⟩ := WorkerView.processChunks_mirror hpass hview hwf hwork
    (by rw [hchunks]; exact hfiles) hchanged (by rw [hchunks]; exact hpairwise)
    (fun _ hr => absurd hr List.not_mem_nil) hbegin
    (by rw [← htakes.artifacts]; exact horderly.scattered)
  rw [hwriting]
  refine ⟨?_, htakes.dryRun, ?_⟩
  · exact (congrArg (List.foldl (mergeReport pass.name) s.writing) hreports).trans
      (mergeReports_writing pass.name s _)
  · rw [hoverrides] at hmirror
    exact htakes.overrides ▸ htakes.artifacts ▸ hmirror

theorem runPasses_cons (s : Session) (entry : Path) (tree pages : List Path) (pass : Pass)
    (passes : List Pass) (disk : Disk) :
    s.runPasses entry tree pages (pass :: passes) disk =
      (s.runPass pass entry (filesFor pass tree pages) disk).1.runPasses entry tree pages passes
        (s.runPass pass entry (filesFor pass tree pages) disk).2 :=
  rfl

theorem runPasses_dryRun (hdry : s.dryRun = true) (entry : Path) (tree pages : List Path)
    {passes : List Pass} (hkeep : ∀ pass ∈ passes, pass.KeepsToFile) (disk : Disk) :
    (s.runPasses entry tree pages passes disk).2 = disk ∧
      GoesOn s (s.runPasses entry tree pages passes disk).1 := by
  induction passes generalizing s with
  | nil => exact ⟨rfl, .refl hdry⟩
  | cons pass passes ih =>
    obtain ⟨hdisk, hon⟩ := runPass_dryRun hdry (hkeep pass List.mem_cons_self) entry
      (filesFor pass tree pages) disk
    obtain ⟨hdisk', hon'⟩ := ih hon.dryRun fun p hp => hkeep p (List.mem_cons_of_mem pass hp)
    rw [runPasses_cons, hdisk]
    exact ⟨hdisk', hon.trans hon'⟩

theorem runPasses_mirror {tree pages : List Path} {passes : List Pass}
    (h : s.Mirrors work disk disk') (hkeep : ∀ pass ∈ passes, pass.KeepsToFile) (entry : Path)
    (hwf : disk.WellFormed) (hwork : Workable disk work changed)
    (htree : ∀ p ∈ tree, p ∈ work) (htree' : tree.Pairwise fun p q => p.same q = false)
    (hpages : ∀ p ∈ pages, p ∈ work) (hpages' : pages.Pairwise fun p q => p.same q = false)
    (horderly : (s.runPasses entry tree pages passes disk).1.Orderly disk changed) :
    (s.writing.runPasses entry tree pages passes disk').1 =
        (s.runPasses entry tree pages passes disk).1.writing := by
  induction passes generalizing s disk' with
  | nil => rfl
  | cons pass passes ih =>
    have hkeep' := fun p hp => hkeep p (List.mem_cons_of_mem pass hp)
    have hfiles : ∀ p ∈ filesFor pass tree pages, p ∈ work := by
      rw [filesFor]
      split
      · exact htree
      · exact hpages
    have hpairwise : (filesFor pass tree pages).Pairwise fun p q => p.same q = false := by
      rw [filesFor]
      split
      · exact htree'
      · exact hpages'
    obtain ⟨hdisk, hon⟩ := runPass_dryRun h.dryRun (hkeep pass List.mem_cons_self) entry
      (filesFor pass tree pages) disk
    rw [runPasses_cons, hdisk] at horderly
    rw [runPasses_cons, runPasses_cons, hdisk]
    have hon' := (runPasses_dryRun hon.dryRun entry tree pages hkeep' disk).2
    obtain ⟨hsession, hmirrors⟩ := runPass_mirror h (hkeep pass List.mem_cons_self) entry hwf hwork
      hfiles hpairwise (hon'.orderly horderly)
    rw [hsession]
    exact ih hmirrors hkeep' horderly

theorem recordWrites_writing (s : Session) (writes : List PendingWrite) :
    writes.foldl recordWrite s.writing = (writes.foldl recordWrite s).writing := by
  induction writes generalizing s with
  | nil => rfl
  | cons w writes ih =>
    have hw : recordWrite s.writing w = (recordWrite s w).writing := by
      rw [recordWrite, recordWrite]
      cases w.createOnly with
      | true =>
        simp only [setOverride, writing, if_true, Bool.false_eq_true, if_false]
        split <;> rfl
      | false =>
        simp only [setOverride, writing, Bool.false_eq_true, if_false]
        split <;> rfl
    rw [List.foldl_cons, hw, ih, List.foldl_cons]

theorem artifacts_recordWrites (s : Session) (path : Path) (wish : Wish) :
    ((wish.writes path).foldl recordWrite s).artifacts = s.artifacts ++ wish.artifacts path := by
  rw [(accounts_recordWrites s path wish).artifacts, List.flatMap_singleton]
  rfl

theorem overrides_recordWrites (hdry : s.dryRun = true) (path : Path) (wish : Wish) :
    ((wish.writes path).foldl recordWrite s).overrides =
      let added := match wish.moved with
        | some text => overlay s.overrides path.configModule text
        | none => s.overrides
      match wish.rewritten with
      | some text => overlay added path text
      | none => added := by
  obtain ⟨moved, rewritten⟩ := wish
  cases moved <;> cases rewritten <;>
    simp [Wish.writes, recordWrite, setOverride, overlay, PendingWrite.create,
      PendingWrite.overwrite, hdry]

theorem goesOn_recordWrites (hdry : s.dryRun = true) (path : Path) (wish : Wish) :
    GoesOn s ((wish.writes path).foldl recordWrite s) := by
  have haccounts := accounts_recordWrites s path wish
  refine ⟨?_, haccounts.passes, ⟨_, haccounts.artifacts.symm⟩, haccounts.kept⟩
  obtain ⟨moved, rewritten⟩ := wish
  cases moved <;> cases rewritten <;>
    simp [Wish.writes, recordWrite, setOverride, PendingWrite.create, PendingWrite.overwrite, hdry]

variable {owner : Path} {writes : List PendingWrite}

theorem commitGroup_of_dryRun (hdry : s.dryRun = true) (owner : Path) (wish : Wish) (disk : Disk) :
    s.commitGroup owner (wish.writes owner) disk =
      (if disk.Accepts owner wish then (wish.writes owner).foldl recordWrite s
        else s.skip (.ofFault owner "project" (.artifactExists owner owner.configModule)),
        disk) := by
  rw [commitGroup, settle, hdry, if_pos rfl, checkTargets_writes]
  by_cases haccepts : disk.Accepts owner wish
  · rw [if_pos haccepts, if_pos haccepts]
  · rw [if_neg haccepts, if_neg haccepts]

theorem commitGroup_dryRun (hdry : s.dryRun = true) (hown : OwnGroup disk (owner, writes)) :
    (s.commitGroup owner writes disk).2 = disk ∧ GoesOn s (s.commitGroup owner writes disk).1 := by
  obtain ⟨-, wish, hwrites⟩ := hown
  simp only at hwrites
  subst hwrites
  rw [commitGroup_of_dryRun hdry]
  refine ⟨rfl, ?_⟩
  split
  · exact goesOn_recordWrites hdry owner wish
  · exact ⟨hdry, rfl, List.prefix_rfl, fun _ hc => hc⟩

/-- The new text of a file shows through the overrides, and the new module hides nothing. -/
theorem readOver_recordWrites (hdry : s.dryRun = true) (hwork : Workable disk work changed)
    {loc : Location} {wish : Wish} (hs : disk.Sits owner loc) (haccepts : disk.Accepts owner wish)
    (q : Path) (hq : q ∈ work) :
    readOver ((wish.writes owner).foldl recordWrite s).overrides disk q =
      match wish.rewritten with
      | some text => if owner.same q then .ok text else readOver s.overrides disk q
      | none => readOver s.overrides disk q := by
  obtain ⟨moved, rewritten⟩ := wish
  rw [overrides_recordWrites hdry]
  cases moved with
  | none => cases rewritten <;> simp [readOver_overlay]
  | some text =>
    -- the module is not there yet, and the file to work on is
    have hother : owner.configModule.same q = false := by
      rw [← Bool.not_eq_true]
      intro hsame
      obtain ⟨locq, hlocq, hatq⟩ := Disk.isFile_iff.mp (hwork.isScript q hq).isFile
      cases Disk.locate_of_same hsame hs.beside hlocq
      have hfree := haccepts.contentsAt? hs rfl
      rw [hatq] at hfree
      cases hfree
    cases rewritten <;> simp [readOver_overlay, hother]

theorem commitGroup_mirror (h : s.Mirrors work disk disk') (hwf : disk.WellFormed)
    (hwork : Workable disk work changed) (hown : OwnGroup disk (owner, writes))
    (howner : owner ∈ work) (horderly : (s.commitGroup owner writes disk).1.Orderly disk changed) :
    (s.writing.commitGroup owner writes disk').1 = (s.commitGroup owner writes disk).1.writing ∧
      (s.commitGroup owner writes disk).1.Mirrors work disk
        (s.writing.commitGroup owner writes disk').2 := by
  obtain ⟨hscript, wish, hwrites⟩ := hown
  simp only at hscript hwrites
  subst hwrites
  obtain ⟨loc, hs, -⟩ := hscript.sits hwf
  have hs' := hs.of_sameDirs h.mirror.sameDirs
  have hartifacts := artifacts_recordWrites s owner wish
  have hwriting : s.writing.dryRun = false := rfl
  rw [commitGroup_of_dryRun h.dryRun] at horderly ⊢
  rw [commitGroup, settle, hwriting, if_neg Bool.false_ne_true, commit_writes hs']
  by_cases haccepts : disk.Accepts owner wish
  · simp only [if_pos haccepts] at horderly ⊢
    have hscattered := horderly.scattered
    rw [hartifacts] at hscattered
    have haccepts' := (h.mirror.accepts_iff hs fun _ => hscattered).mpr haccepts
    have hchanged (hrewritten : wish.rewritten.isSome = true) :
        ∃ c ∈ changed, c.same owner = true := by
      obtain ⟨c, hc, hsame⟩ := (accounts_recordWrites s owner wish).changed ⟨owner, wish⟩
        List.mem_cons_self hrewritten
      exact ⟨c, horderly.within c hc, hsame⟩
    rw [if_pos haccepts']
    refine ⟨recordWrites_writing s _, (goesOn_recordWrites h.dryRun owner wish).dryRun, ?_⟩
    rw [hartifacts]
    exact h.mirror.grant hwork howner hs haccepts' hchanged
      (readOver_recordWrites h.dryRun hwork hs haccepts)
  · have haccepts' : ¬ disk'.Accepts owner wish := fun hyes =>
      haccepts ((h.mirror.accepts_iff hs fun hno => absurd hno haccepts).mp hyes)
    simp only [if_neg haccepts, if_neg haccepts']
    exact ⟨rfl, h.dryRun, h.mirror⟩

theorem commitGroups_cons (s : Session) (g : Path × List PendingWrite)
    (groups : List (Path × List PendingWrite)) (disk : Disk) :
    s.commitGroups (g :: groups) disk =
      (s.commitGroup g.1 g.2 disk).1.commitGroups groups (s.commitGroup g.1 g.2 disk).2 :=
  rfl

theorem commitGroups_dryRun {groups : List (Path × List PendingWrite)} (hdry : s.dryRun = true)
    (hown : ∀ g ∈ groups, OwnGroup disk g) :
    (s.commitGroups groups disk).2 = disk ∧ GoesOn s (s.commitGroups groups disk).1 := by
  induction groups generalizing s with
  | nil => exact ⟨rfl, .refl hdry⟩
  | cons g groups ih =>
    obtain ⟨hdisk, hon⟩ := commitGroup_dryRun hdry (hown g List.mem_cons_self)
    obtain ⟨hdisk', hon'⟩ := ih hon.dryRun fun g' hg' => hown g' (List.mem_cons_of_mem g hg')
    rw [commitGroups_cons, hdisk]
    exact ⟨hdisk', hon.trans hon'⟩

theorem commitGroups_mirror {groups : List (Path × List PendingWrite)}
    (h : s.Mirrors work disk disk') (hwf : disk.WellFormed) (hwork : Workable disk work changed)
    (hown : ∀ g ∈ groups, OwnGroup disk g) (hgroups : ∀ g ∈ groups, g.1 ∈ work)
    (horderly : (s.commitGroups groups disk).1.Orderly disk changed) :
    (s.writing.commitGroups groups disk').1 = (s.commitGroups groups disk).1.writing ∧
      (s.commitGroups groups disk).1.Mirrors work disk
        (s.writing.commitGroups groups disk').2 := by
  induction groups generalizing s disk' with
  | nil => exact ⟨rfl, h⟩
  | cons g groups ih =>
    have hown' := fun g' hg' => hown g' (List.mem_cons_of_mem g hg')
    obtain ⟨hdisk, hon⟩ := commitGroup_dryRun h.dryRun (hown g List.mem_cons_self)
    rw [commitGroups_cons, hdisk] at horderly
    rw [commitGroups_cons, commitGroups_cons, hdisk]
    have hon' := (commitGroups_dryRun hon.dryRun hown').2
    obtain ⟨hsession, hmirrors⟩ := commitGroup_mirror h hwf hwork (hown g List.mem_cons_self)
      (hgroups g List.mem_cons_self) (hon'.orderly horderly)
    rw [hsession]
    exact ih hmirrors hown' (fun g' hg' => hgroups g' (List.mem_cons_of_mem g hg')) horderly

end Session

end Codemod
