import Codemod.Proofs.Session.Writing

/-!
# Codemod.Proofs.Session.Chunks

The chunks of a pass, and what becomes of the reports on them.

The reports of workers that go through their chunks one after the other add up to the report of one
worker that goes through all files (`processChunks_eq`), and a session takes them in as it would
take in that one (`mergeReport_append`). It takes in the result for a file by adding to its lists
(`mergeResult_eq`), and `Session.taking` says what a report makes of each of them. So a pass is what
a single worker does (`runPass_eq`), and the number of workers only decides how the list is cut: in
order, into no more chunks than there are workers (`length_chunks_le`).
-/

namespace Codemod

namespace Tally

@[simp] theorem merge_empty (t : Tally) : t.merge empty = t := by
  obtain ⟨decorators, constEnums⟩ := t
  cases decorators <;> cases constEnums <;> rfl

@[simp] theorem empty_merge (t : Tally) : empty.merge t = t := by
  obtain ⟨decorators, constEnums⟩ := t
  cases decorators <;> cases constEnums <;> rfl

theorem addEntries_assoc (a b c : Option Nat) :
    addEntries (addEntries a b) c = addEntries a (addEntries b c) := by
  cases a <;> cases b <;> cases c <;> simp [addEntries, Nat.add_assoc]

theorem merge_assoc (t u v : Tally) : (t.merge u).merge v = t.merge (u.merge v) := by
  simp only [merge, addEntries_assoc]

end Tally

namespace WorkerReport

/-- The report of a worker that goes on where another one has ended. -/
def append (r r' : WorkerReport) : WorkerReport :=
  ⟨r.tally.merge r'.tally, r.observed ++ r'.observed, r.results ++ r'.results⟩

@[simp] theorem append_empty (r : WorkerReport) : r.append empty = r := by
  simp [append, empty]

@[simp] theorem empty_append (r : WorkerReport) : empty.append r = r := by
  simp [append, empty]

theorem append_assoc (r r' r'' : WorkerReport) :
    (r.append r').append r'' = r.append (r'.append r'') := by
  simp only [append, Tally.merge_assoc, List.append_assoc]

end WorkerReport

namespace FileResult

def noticed (r : FileResult) (pass : String) : List Notice :=
  r.notices.map fun m => ⟨r.path, pass, m⟩

def skips (r : FileResult) (pass : String) : List Skip :=
  match r.outcome with
  | .failed fault => [.ofFault r.path pass fault]
  | .unchanged | .changed .. => []

def artifacts (r : FileResult) : List Path :=
  match r.outcome with
  | .changed _ artifacts => artifacts
  | .unchanged | .failed _ => []

/-- The overrides of a dry run, once it has this result. -/
def override (r : FileResult) (overrides : List (Path × Text)) : List (Path × Text) :=
  match r.outcome with
  | .changed contents _ => (r.path, contents) :: overrides.filter fun o => !o.1.same r.path
  | .unchanged | .failed _ => overrides

end FileResult

namespace WorkerView

variable (view : WorkerView)

/-- What a worker does with a file does not depend on what it has reported so far. -/
theorem process_append (path : Path) (report : WorkerReport) (disk : Disk) :
    view.process path report disk =
      (report.append (view.process path .empty disk).1, (view.process path .empty disk).2) := by
  rw [process, process]
  cases hload : view.load disk path with
  | error fault => simp [WorkerReport.append, WorkerReport.empty]
  | ok source =>
    cases hparse : Script.parse path source with
    | error cause => simp [hparse, WorkerReport.append, WorkerReport.empty]
    | ok script =>
      by_cases happlies : view.pass.applies script = true
      · cases hpatch : view.pass.patch view.entry script <;>
          by_cases hseen : view.hasObserved path = true <;>
          simp [hparse, happlies, hpatch, hseen, WorkerReport.append, WorkerReport.empty]
      · by_cases hseen : view.hasObserved path = true <;>
          simp [hparse, happlies, hseen, WorkerReport.append, WorkerReport.empty]

theorem processAll_append (files : List Path) (report : WorkerReport) (disk : Disk) :
    view.processAll files report disk =
      (report.append (view.processAll files .empty disk).1,
        (view.processAll files .empty disk).2) := by
  induction files generalizing report disk with
  | nil => simp [processAll]
  | cons path files ih =>
    have hstep := view.process_append path report disk
    rw [processAll_cons, processAll_cons, hstep, ih, ih (view.process path .empty disk).1,
      WorkerReport.append_assoc]

theorem processAll_of_append (files files' : List Path) (disk : Disk) :
    view.processAll (files ++ files') .empty disk =
      ((view.processAll files .empty disk).1.append
          (view.processAll files' .empty (view.processAll files .empty disk).2).1,
        (view.processAll files' .empty (view.processAll files .empty disk).2).2) := by
  induction files generalizing disk with
  | nil => simp [processAll]
  | cons path files ih =>
    have hfirst := view.processAll_append files (view.process path .empty disk).1
      (view.process path .empty disk).2
    rw [List.cons_append, processAll_cons, processAll_append, ih, processAll_cons, hfirst,
      WorkerReport.append_assoc]

end WorkerView

namespace Session

variable {s : Session}

/-- What a worker sees of the session when a pass begins. -/
def view (s : Session) (pass : Pass) (entry : Path) : WorkerView :=
  ⟨pass, entry, s.observed, s.overrides, s.dryRun⟩

/-- Takes in what a report says of the features of files. -/
def notes (s : Session) (tally : Tally) (observed : List Path) : Session :=
  { s with tally := s.tally.merge tally, observed := s.observed ++ observed }

/-- What the result for a file adds to each of the lists of a session. -/
theorem mergeResult_eq (pass : String) (s : Session) (r : FileResult) :
    mergeResult pass s r =
      { s with
        notices := s.notices ++ r.noticed pass
        skipped := s.skipped ++ r.skips pass
        artifacts := s.artifacts ++ r.artifacts
        changed := if r.change?.isSome then insertPath r.path s.changed else s.changed
        overrides := if s.dryRun then r.override s.overrides else s.overrides } := by
  rw [mergeResult]
  cases houtcome : r.outcome with
  | unchanged =>
    simp [FileResult.noticed, FileResult.skips, FileResult.artifacts, FileResult.change?,
      FileResult.override, houtcome]
  | failed fault =>
    simp [FileResult.noticed, FileResult.skips, FileResult.artifacts, FileResult.change?,
      FileResult.override, houtcome, skip]
  | changed contents artifacts =>
    simp only [FileResult.noticed, FileResult.skips, FileResult.artifacts, FileResult.change?,
      FileResult.override, houtcome, setOverride]
    split <;> simp

theorem mergeResult_notes (pass : String) (s : Session) (tally : Tally) (observed : List Path)
    (r : FileResult) :
    mergeResult pass (s.notes tally observed) r = (mergeResult pass s r).notes tally observed := by
  rw [mergeResult_eq, mergeResult_eq]
  rfl

theorem mergeResults_notes (pass : String) (s : Session) (tally : Tally) (observed : List Path)
    (results : List FileResult) :
    results.foldl (mergeResult pass) (s.notes tally observed) =
      (results.foldl (mergeResult pass) s).notes tally observed := by
  induction results generalizing s with
  | nil => rfl
  | cons r results ih => rw [List.foldl_cons, mergeResult_notes, ih, List.foldl_cons]

theorem mergeReport_eq (pass : String) (s : Session) (r : WorkerReport) :
    mergeReport pass s r = (r.results.foldl (mergeResult pass) s).notes r.tally r.observed :=
  mergeResults_notes pass s r.tally r.observed r.results

/-- The session once it has taken in a report: what becomes of each of its lists. -/
def taking (s : Session) (pass : String) (r : WorkerReport) : Session :=
  { s with
    tally := s.tally.merge r.tally
    observed := s.observed ++ r.observed
    changed := (r.results.filter (·.change?.isSome)).foldl
      (fun paths f => insertPath f.path paths) s.changed
    artifacts := s.artifacts ++ r.results.flatMap FileResult.artifacts
    skipped := s.skipped ++ r.results.flatMap (·.skips pass)
    notices := s.notices ++ r.results.flatMap (·.noticed pass)
    overrides :=
      if s.dryRun then r.results.foldl (fun overrides f => f.override overrides) s.overrides
      else s.overrides }

theorem mergeResults_eq (pass : String) (s : Session) (results : List FileResult) :
    results.foldl (mergeResult pass) s = s.taking pass ⟨.empty, [], results⟩ := by
  induction results generalizing s with
  | nil => simp [taking]
  | cons r results ih =>
    rw [List.foldl_cons, ih, mergeResult_eq, taking, taking]
    cases hchange : r.change?.isSome <;> cases hdry : s.dryRun <;>
      simp [hchange, List.append_assoc]

/-- The results for files are taken in one after the other, each at the end of the lists. -/
theorem mergeReport_eq_taking (pass : String) (s : Session) (r : WorkerReport) :
    mergeReport pass s r = s.taking pass r := by
  rw [mergeReport_eq, mergeResults_eq, taking, taking, notes]
  simp

@[simp] theorem mergeReport_empty (pass : String) (s : Session) :
    mergeReport pass s .empty = s := by
  simp [mergeReport, WorkerReport.empty]

theorem mergeReport_append (pass : String) (s : Session) (r r' : WorkerReport) :
    mergeReport pass s (r.append r') = mergeReport pass (mergeReport pass s r) r' := by
  simp only [mergeReport_eq, WorkerReport.append, List.foldl_append, mergeResults_notes]
  simp only [notes, Tally.merge_assoc, List.append_assoc]

/-- The reports on chunks are taken in like one report on all files. -/
theorem processChunks_eq (view : WorkerView) (pass : String) (s : Session)
    (chunks : List (List Path)) (disk : Disk) :
    (view.processChunks chunks disk).1.foldl (mergeReport pass) s =
        mergeReport pass s (view.processAll chunks.flatten .empty disk).1 ∧
      (view.processChunks chunks disk).2 = (view.processAll chunks.flatten .empty disk).2 := by
  induction chunks generalizing s disk with
  | nil => exact ⟨(mergeReport_empty pass s).symm, rfl⟩
  | cons chunk chunks ih =>
    obtain ⟨hsession, hdisk⟩ := ih (mergeReport pass s (view.processAll chunk .empty disk).1)
      (view.processAll chunk .empty disk).2
    rw [WorkerView.processChunks_cons, List.flatten_cons, view.processAll_of_append,
      List.foldl_cons, mergeReport_append]
    exact ⟨hsession, hdisk⟩

/-- A pass is what one worker does with all files. -/
theorem runPass_eq (s : Session) (pass : Pass) (entry : Path) (files : List Path) (disk : Disk) :
    s.runPass pass entry files disk =
      (mergeReport pass.name s ((s.view pass entry).processAll files .empty disk).1,
        ((s.view pass entry).processAll files .empty disk).2) := by
  obtain ⟨hsession, hdisk⟩ :=
    processChunks_eq (s.view pass entry) pass.name s (chunks s.workers files) disk
  rw [flatten_chunks] at hsession hdisk
  exact Prod.ext hsession hdisk

end Session

theorem length_chunksWithin_lt {α : Type} {size : Nat} (hsize : 0 < size) (fuel : Nat)
    (xs : List α) (hfuel : xs.length ≤ fuel) :
    (chunksWithin size fuel xs).length * size < xs.length + size := by
  induction fuel generalizing xs with
  | zero =>
    have hnil : xs = [] := List.eq_nil_of_length_eq_zero (by omega)
    subst hnil
    simpa [chunksWithin] using hsize
  | succ fuel ih =>
    cases xs with
    | nil => simpa [chunksWithin] using hsize
    | cons x xs =>
      have hdrop : ((x :: xs).drop size).length = xs.length + 1 - size := by simp
      simp only [List.length_cons] at hfuel
      have hrest := ih ((x :: xs).drop size) (by omega)
      rw [chunksWithin, List.length_cons, Nat.succ_mul, List.length_cons]
      by_cases hlong : size ≤ xs.length + 1
      · omega
      · -- one chunk takes in all that is left
        have hnil : (x :: xs).drop size = [] := List.drop_eq_nil_of_le (by simp; omega)
        rw [hnil]
        simp [chunksWithin]

theorem length_chunks_le {α : Type} {workers : Nat} (hworkers : 0 < workers) (xs : List α) :
    (chunks workers xs).length ≤ workers := by
  rw [chunks]
  generalize hsize : max ((xs.length + workers - 1) / workers) 1 = size
  have hpos : 0 < size := by omega
  have hlength := length_chunksWithin_lt hpos xs.length xs (Nat.le_refl _)
  have hdiv := Nat.lt_div_mul_add hworkers (a := xs.length + workers - 1)
  have hcover : xs.length ≤ workers * size := by
    have hle : (xs.length + workers - 1) / workers ≤ size := by omega
    have hmul := Nat.mul_le_mul_right workers hle
    rw [Nat.mul_comm workers size]
    omega
  have hlt : (chunksWithin size xs.length xs).length * size < (workers + 1) * size := by
    rw [Nat.add_mul, Nat.one_mul]
    omega
  exact Nat.lt_succ_iff.mp (Nat.lt_of_mul_lt_mul_right hlt)

end Codemod
