import Codemod.Proofs.Commit.Stages
import Codemod.Proofs.Migration.Visits
import Codemod.Proofs.Session.Isolation

/-!
# Codemod.Proofs.Migration.Attempts

What a migration leaves alone.

An `Attempt` is what was tried for one file: a control file, or a file of a pass. It keeps the disk
as it was before and as it was afterwards. `migrationAttempts` are those of a whole migration, in
order, each one beginning where the one before has ended (`Linked`).

* `settled_safe`: a worker that fails has written nothing, and the disk stays well-formed.
* `WorkerView.attempts_sound`, `Session.groupAttempts_sound`, `Session.passAttempts_sound`: the
  skipped files are those whose attempt has failed, and nothing has become of these attempts.
* `skipped_untouched`: so it is with every skipped file of a migration.
-/

namespace Codemod

theorem Wish.length_creates_le (wish : Wish) (path : Path) :
    ((wish.writes path).filter (·.createOnly)).length ≤ 1 := by
  obtain ⟨moved, rewritten⟩ := wish
  cases moved <;> cases rewritten <;>
    simp [writes, PendingWrite.create, PendingWrite.overwrite]

structure Attempt where
  path : Path
  /-- The name of the pass. -/
  pass : String
  before : Disk
  fault? : Option Fault
  after : Disk

namespace Attempt

/-- What is listed for it. -/
def skips (a : Attempt) : List Skip :=
  (a.fault?.map (Skip.ofFault a.path a.pass)).toList

/-- If it is listed, nothing was written. -/
def Harmless (a : Attempt) : Prop :=
  a.skips ≠ [] → a.after = a.before

theorem harmless_of_fault? {a : Attempt} (h : a.fault?.isSome = true → a.after = a.before) :
    a.Harmless := by
  intro hskips
  apply h
  cases hfault : a.fault? with
  | some fault => rfl
  | none => simp [skips, hfault] at hskips

end Attempt

/-- One attempt after the other, from one disk to another. -/
inductive Linked : Disk → List Attempt → Disk → Prop where
  | nil (disk : Disk) : Linked disk [] disk
  | cons {a : Attempt} {attempts : List Attempt} {disk' : Disk} :
      Linked a.after attempts disk' → Linked a.before (a :: attempts) disk'

theorem Linked.append {disk mid disk' : Disk} {attempts attempts' : List Attempt}
    (h : Linked disk attempts mid) (h' : Linked mid attempts' disk') :
    Linked disk (attempts ++ attempts') disk' := by
  induction h with
  | nil => exact h'
  | cons _ ih => exact .cons (ih h')

/-- A list of attempts that lead from one disk to another and leave alone what they skip. -/
structure Trail (disk : Disk) (attempts : List Attempt) (skips : List Skip) (disk' : Disk) :
    Prop where
  linked : Linked disk attempts disk'
  skipped : attempts.flatMap Attempt.skips = skips
  harmless : ∀ a ∈ attempts, a.Harmless

namespace Trail

theorem nil (disk : Disk) : Trail disk [] [] disk :=
  ⟨.nil disk, rfl, nofun⟩

theorem single {a : Attempt} (h : a.Harmless) : Trail a.before [a] a.skips a.after :=
  ⟨.cons (.nil _), List.flatMap_singleton _ _, by simpa using h⟩

theorem append {disk mid disk' : Disk} {attempts attempts' : List Attempt}
    {skips skips' : List Skip} (h : Trail disk attempts skips mid)
    (h' : Trail mid attempts' skips' disk') :
    Trail disk (attempts ++ attempts') (skips ++ skips') disk' where
  linked := h.linked.append h'.linked
  skipped := by rw [List.flatMap_append, h.skipped, h'.skipped]
  harmless a ha := (List.mem_append.mp ha).elim (h.harmless a) (h'.harmless a)

end Trail

namespace FileResult

def fault? (r : FileResult) : Option Fault :=
  match r.outcome with
  | .failed fault => some fault
  | .unchanged | .changed .. => none

theorem skips_eq (r : FileResult) (pass : String) :
    r.skips pass = (r.fault?.map (Skip.ofFault r.path pass)).toList := by
  rw [skips, fault?]
  cases r.outcome <;> rfl

end FileResult

namespace WorkerView

variable {view : WorkerView} {disk : Disk} {path : Path}

/-- What is read is what is on the disk, unless nothing is ever written. -/
def Faithful (view : WorkerView) : Prop :=
  view.dryRun = false → view.overrides = []

theorem isFile_of_wish (hview : view.Faithful) (hreal : view.dryRun = false)
    (h : view.wish disk path ≠ .nothing) : disk.isFile path = true := by
  obtain ⟨source, hload, -⟩ := outcome_answer h
  have hw : view.Writing := ⟨hreal, hview hreal⟩
  rw [hw.load, Disk.read] at hload
  cases hloc : disk.locate path with
  | error obstacle =>
    rw [hloc] at hload
    cases hload
  | ok loc =>
    refine Disk.isFile_iff.mpr ⟨loc, hloc, ?_⟩
    cases hat : disk.contentsAt? loc with
    | some contents => rfl
    | none =>
      simp only [hloc, hat] at hload
      cases hload

theorem settled_safe (hview : view.Faithful) (hwf : disk.WellFormed) (path : Path) :
    (view.settled disk path).2.WellFormed ∧
      ((view.settled disk path).1 ≠ .ok () → (view.settled disk path).2 = disk) := by
  cases hdry : view.dryRun with
  | true =>
    rw [settled_of_dryRun hdry]
    exact ⟨hwf, fun _ => rfl⟩
  | false =>
    by_cases hnothing : view.wish disk path = .nothing
    · rw [settled_of_nothing hnothing]
      exact ⟨hwf, fun _ => rfl⟩
    · -- the file was just read, so it can be replaced
      obtain ⟨loc, hs, hat⟩ := hwf.sits_of_isFile (isFile_of_wish hview hdry hnothing)
      rw [view.settled_eq hs, hdry, if_neg Bool.false_ne_true]
      by_cases haccepts : disk.Accepts path (view.wish disk path)
      · rw [if_pos haccepts]
        exact ⟨hwf.grant hat fun hmoved => (hs.accepts_iff.mp haccepts hmoved).2,
          fun hfailed => absurd rfl hfailed⟩
      · rw [if_neg haccepts]
        exact ⟨hwf, fun _ => rfl⟩

/-- A result that says that the pass has failed says that nothing was written, whether the file
could not be read or parsed, or the pass could not rewrite it, or its writes were refused. -/
theorem settled_of_fault? (hview : view.Faithful) (hwf : disk.WellFormed)
    (h : (view.result disk path).fault?.isSome = true) : (view.settled disk path).2 = disk := by
  by_cases hnothing : view.wish disk path = .nothing
  · rw [settled_of_nothing hnothing]
  · obtain ⟨source, -, houtcome⟩ := outcome_answer hnothing
    apply (settled_safe hview hwf path).2
    intro hok
    rw [FileResult.fault?, result, houtcome, hok, outcome, if_neg hnothing] at h
    cases h

/-- What was tried for each of the files. -/
def attempts (view : WorkerView) : List Path → Disk → List Attempt
  | [], _ => []
  | path :: files, disk =>
    let step := view.process path .empty disk
    (step.1.results.map fun r => ⟨r.path, view.pass.name, disk, r.fault?, step.2⟩) ++
      view.attempts files step.2

def attempt (view : WorkerView) (disk : Disk) (path : Path) : Attempt :=
  ⟨path, view.pass.name, disk, (view.result disk path).fault?, (view.settled disk path).2⟩

theorem skips_attempt (view : WorkerView) (disk : Disk) (path : Path) :
    (view.attempt disk path).skips = (view.result disk path).skips view.pass.name := by
  rw [FileResult.skips_eq, path_result]
  rfl

theorem attempts_cons (hkeep : view.pass.KeepsToFile) (path : Path) (files : List Path)
    (disk : Disk) :
    view.attempts (path :: files) disk =
      view.attempt disk path :: view.attempts files (view.settled disk path).2 := by
  obtain ⟨hresults, hdisk⟩ := process_eq_result hkeep path disk
  rw [attempts, hresults, hdisk, List.map_singleton, path_result]
  rfl

theorem attempts_sound (hkeep : view.pass.KeepsToFile) (hview : view.Faithful)
    (hwf : disk.WellFormed) (files : List Path) :
    Trail disk (view.attempts files disk)
        ((view.processAll files .empty disk).1.results.flatMap (·.skips view.pass.name))
        (view.processAll files .empty disk).2 ∧
      (view.processAll files .empty disk).2.WellFormed := by
  induction files generalizing disk with
  | nil => exact ⟨.nil disk, hwf⟩
  | cons path files ih =>
    obtain ⟨hresults, hdisk⟩ := process_eq_result hkeep path disk
    obtain ⟨htrail, hwf'⟩ := ih (settled_safe hview hwf path).1
    have hfirst : (view.attempt disk path).Harmless :=
      Attempt.harmless_of_fault? fun hfault => settled_of_fault? hview hwf hfault
    rw [processAll_cons, view.processAll_append, attempts_cons hkeep, hdisk]
    refine ⟨?_, hwf'⟩
    rw [WorkerReport.append, hresults, List.flatMap_append, List.flatMap_singleton, ← skips_attempt]
    exact (Trail.single hfirst).append htrail

end WorkerView

namespace Session

variable {s : Session} {disk : Disk}

/-- Only a dry run has overrides. -/
def Faithful (s : Session) : Prop :=
  s.dryRun = false → s.overrides = []

theorem faithful_mergeResults (hs : s.Faithful) (pass : String) (results : List FileResult) :
    (results.foldl (mergeResult pass) s).Faithful ∧
      (results.foldl (mergeResult pass) s).skipped =
        s.skipped ++ results.flatMap (·.skips pass) := by
  induction results generalizing s with
  | nil => exact ⟨hs, by simp⟩
  | cons r results ih =>
    have hstep : (mergeResult pass s r).Faithful := by
      intro hreal
      rw [mergeResult_eq] at hreal ⊢
      simpa [show s.dryRun = false from hreal] using hs hreal
    obtain ⟨hfaithful, hskipped⟩ := ih hstep
    rw [List.foldl_cons]
    refine ⟨hfaithful, ?_⟩
    rw [hskipped, mergeResult_eq, List.flatMap_cons, List.append_assoc]

theorem runPass_sound (hs : s.Faithful) {pass : Pass} (hkeep : pass.KeepsToFile) (entry : Path)
    (files : List Path) (hwf : disk.WellFormed) :
    (s.runPass pass entry files disk).1.Faithful ∧
      (s.runPass pass entry files disk).2.WellFormed ∧
      ∃ skips, Trail disk ((s.view pass entry).attempts files disk) skips
          (s.runPass pass entry files disk).2 ∧
        (s.runPass pass entry files disk).1.skipped = s.skipped ++ skips := by
  obtain ⟨htrail, hwf'⟩ := (s.view pass entry).attempts_sound hkeep hs hwf files
  rw [runPass_eq, mergeReport_eq]
  obtain ⟨hfaithful, hskipped⟩ := faithful_mergeResults hs pass.name
    ((s.view pass entry).processAll files .empty disk).1.results
  exact ⟨hfaithful, hwf', _, htrail, hskipped⟩

/-- What was tried for the files of each pass. -/
def passAttempts (s : Session) (entry : Path) (tree pages : List Path) :
    List Pass → Disk → List Attempt
  | [], _ => []
  | pass :: passes, disk =>
    let next := s.runPass pass entry (filesFor pass tree pages) disk
    (s.view pass entry).attempts (filesFor pass tree pages) disk ++
      next.1.passAttempts entry tree pages passes next.2

theorem passAttempts_sound (hs : s.Faithful) (hwf : disk.WellFormed) (entry : Path)
    (tree pages : List Path) {passes : List Pass} (hkeep : ∀ pass ∈ passes, pass.KeepsToFile) :
    ∃ skips, Trail disk (s.passAttempts entry tree pages passes disk) skips
        (s.runPasses entry tree pages passes disk).2 ∧
      (s.runPasses entry tree pages passes disk).1.skipped = s.skipped ++ skips := by
  induction passes generalizing s disk with
  | nil => exact ⟨[], .nil disk, by simp [runPasses]⟩
  | cons pass passes ih =>
    obtain ⟨hs', hwf', skips, htrail, hskipped⟩ := runPass_sound hs
      (hkeep pass List.mem_cons_self) entry (filesFor pass tree pages) hwf
    obtain ⟨skips', htrail', hskipped'⟩ :=
      ih hs' hwf' fun p hp => hkeep p (List.mem_cons_of_mem pass hp)
    rw [runPasses_cons]
    refine ⟨skips ++ skips', htrail.append htrail', ?_⟩
    rw [hskipped', hskipped, List.append_assoc]

/-- Writes that were carried out are no skips, and only a dry run remembers their texts. -/
theorem recordWrites_faithful (hs : s.Faithful) (writes : List PendingWrite) :
    (writes.foldl recordWrite s).Faithful ∧ (writes.foldl recordWrite s).skipped = s.skipped ∧
      (writes.foldl recordWrite s).passes = s.passes := by
  induction writes generalizing s with
  | nil => exact ⟨hs, rfl, rfl⟩
  | cons w writes ih =>
    have hstep : (recordWrite s w).Faithful ∧ (recordWrite s w).skipped = s.skipped ∧
        (recordWrite s w).passes = s.passes := by
      cases hdry : s.dryRun with
      | true => cases hnew : w.createOnly <;> simp [recordWrite, setOverride, Faithful, hnew, hdry]
      | false =>
        cases hnew : w.createOnly <;>
          simpa [recordWrite, setOverride, Faithful, hnew, hdry] using hs hdry
    obtain ⟨hfaithful, hskipped, hpasses⟩ := ih hstep.1
    exact ⟨hfaithful, hskipped.trans hstep.2.1, hpasses.trans hstep.2.2⟩

def groupAttempt (s : Session) (group : Path × List PendingWrite) (disk : Disk) : Attempt :=
  let went := settle s.dryRun group.1 group.2 disk
  let fault? := match went.1 with
    | .error fault => some fault
    | .ok () => none
  ⟨group.1, "project", disk, fault?, went.2⟩

def groupAttempts (s : Session) : List (Path × List PendingWrite) → Disk → List Attempt
  | [], _ => []
  | group :: groups, disk =>
    let next := s.commitGroup group.1 group.2 disk
    s.groupAttempt group disk :: next.1.groupAttempts groups next.2

theorem groupAttempt_sound (s : Session) (hwf : disk.WellFormed)
    {group : Path × List PendingWrite} (hown : OwnGroup disk group) :
    (s.groupAttempt group disk).Harmless ∧ disk.Grows (s.groupAttempt group disk).after ∧
      (s.groupAttempt group disk).after.WellFormed := by
  obtain ⟨hscript, wish, hwrites⟩ := hown
  obtain ⟨loc, hsits, hat⟩ := hscript.sits hwf
  have hsettle := settle_writes s.dryRun hsits wish
  rw [← hwrites] at hsettle
  by_cases haccepts : disk.Accepts group.1 wish
  · rw [if_pos haccepts] at hsettle
    refine ⟨Attempt.harmless_of_fault? (by simp [groupAttempt, hsettle]), ?_⟩
    simp only [groupAttempt, hsettle]
    cases s.dryRun with
    | true => exact ⟨.refl disk, hwf⟩
    | false =>
      exact ⟨.grant hat wish, hwf.grant hat fun hmoved => (hsits.accepts_iff.mp haccepts hmoved).2⟩
  · rw [if_neg haccepts] at hsettle
    simp only [groupAttempt, hsettle]
    exact ⟨Attempt.harmless_of_fault? fun _ => rfl, .refl disk, hwf⟩

theorem commitGroup_sound (hs : s.Faithful) (group : Path × List PendingWrite) (disk : Disk) :
    (s.commitGroup group.1 group.2 disk).1.Faithful ∧
      (s.commitGroup group.1 group.2 disk).1.passes = s.passes ∧
      (s.commitGroup group.1 group.2 disk).1.skipped =
        s.skipped ++ (s.groupAttempt group disk).skips ∧
      (s.commitGroup group.1 group.2 disk).2 = (s.groupAttempt group disk).after := by
  obtain ⟨hfaithful, hskipped, hpasses⟩ := recordWrites_faithful hs group.2
  rw [commitGroup, groupAttempt, Attempt.skips]
  cases hsettle : settle s.dryRun group.1 group.2 disk with
  | mk went after =>
    cases went with
    | ok _ => exact ⟨hfaithful, hpasses, by simpa using hskipped, rfl⟩
    | error fault => exact ⟨hs, rfl, rfl, rfl⟩

theorem groupAttempts_sound (hs : s.Faithful) (hwf : disk.WellFormed)
    {groups : List (Path × List PendingWrite)} (hown : ∀ group ∈ groups, OwnGroup disk group) :
    (s.commitGroups groups disk).1.Faithful ∧
      (s.commitGroups groups disk).1.passes = s.passes ∧
      (s.commitGroups groups disk).2.WellFormed ∧
      ∃ skips, Trail disk (s.groupAttempts groups disk) skips (s.commitGroups groups disk).2 ∧
        (s.commitGroups groups disk).1.skipped = s.skipped ++ skips := by
  induction groups generalizing s disk with
  | nil => exact ⟨hs, rfl, hwf, [], .nil disk, by simp [commitGroups]⟩
  | cons group groups ih =>
    obtain ⟨hharmless, hgrows, hwf'⟩ := s.groupAttempt_sound hwf (hown group List.mem_cons_self)
    obtain ⟨hs', hpasses, hskipped, hdisk⟩ := commitGroup_sound hs group disk
    have hown' : ∀ g ∈ groups, OwnGroup (s.groupAttempt group disk).after g := fun g hg =>
      have hg := hown g (List.mem_cons_of_mem group hg)
      ⟨hgrows.isScript hg.isScript, hg.own⟩
    rw [commitGroups_cons, groupAttempts, hdisk]
    obtain ⟨hfaithful, hpasses', hwf'', skips, htrail, hskipped'⟩ := ih hs' hwf' hown'
    refine ⟨hfaithful, hpasses'.trans hpasses, hwf'', _, (Trail.single hharmless).append htrail, ?_⟩
    rw [hskipped', hskipped, List.append_assoc]

/-- What is tried for a project once its control files are committed. -/
def runAttempts (s : Session) (project : Project) (disk : Disk) : List Attempt :=
  s.passAttempts project.entryFilePath (SourceTree.sources disk project.sourceDir)
    (project.pageFiles disk) s.passes disk

theorem runAttempts_sound (hs : s.Faithful) (hwf : disk.WellFormed)
    (hkeep : ∀ pass ∈ s.passes, pass.KeepsToFile) (project : Project) :
    ∃ skips, Trail disk (s.runAttempts project disk) skips (s.run project disk).2 ∧
      (s.run project disk).1.skipped = s.skipped ++ skips :=
  passAttempts_sound hs hwf project.entryFilePath _ _ hkeep

theorem skipped_planDependencies (s : Session) (root : Path) (disk : Disk) :
    ∃ rest, (s.planDependencies root disk).1.skipped = s.skipped ++ rest ∧
      ∀ k ∈ rest, k.pass = "dependencies" := by
  unfold planDependencies
  split
  · exact ⟨[], (List.append_nil _).symm, fun _ hk => absurd hk List.not_mem_nil⟩
  · exact ⟨_, rfl, by simp [Skip.ofFault]⟩

end Session

/-- What a migration tries, from the control files on. -/
def migrationAttempts (options : Options) (available : Nat) (disk : Disk) : List Attempt :=
  match Project.load options disk with
  | .error _ => []
  | .ok plan =>
    let start := Session.start Pass.standard options available
    let committed := start.commitProject plan disk
    start.groupAttempts plan.writes disk ++ committed.1.runAttempts plan.project committed.2

theorem migrate_trail {options : Options} {disk : Disk} {plan : ProjectPlan} (available : Nat)
    (hwf : disk.WellFormed) (hload : Project.load options disk = .ok plan) :
    ∃ report skips rest, (migrate options available disk).1 = .ok report ∧
      Trail disk (migrationAttempts options available disk) skips
        (migrate options available disk).2 ∧
      report.skipped = skips ++ rest ∧ ∀ k ∈ rest, k.pass = "dependencies" := by
  have hstart : (Session.start Pass.standard options available).Faithful := fun _ => rfl
  obtain ⟨hfaithful, hpasses, hwf', skips, htrail, hskipped⟩ :=
    Session.groupAttempts_sound hstart hwf (Project.load_sound hload).groups
  have hkeep : ∀ pass ∈ ((Session.start Pass.standard options available).commitGroups
      plan.writes disk).1.passes, pass.KeepsToFile := by
    intro pass hpass
    rw [hpasses] at hpass
    exact Pass.keepsToFile_of_mem hpass
  obtain ⟨skips', htrail', hskipped'⟩ :=
    Session.runAttempts_sound hfaithful hwf' hkeep plan.project
  unfold migrationAttempts
  rw [migrate_of_load available hload, hload]
  obtain ⟨rest, hrest, hnames⟩ := Session.skipped_planDependencies
    (((Session.start Pass.standard options available).commitProject plan disk).1.run plan.project
      ((Session.start Pass.standard options available).commitProject plan disk).2).1
    plan.project.rootDir
    (((Session.start Pass.standard options available).commitProject plan disk).1.run plan.project
      ((Session.start Pass.standard options available).commitProject plan disk).2).2
  refine ⟨_, skips ++ skips', rest, rfl, htrail.append htrail', ?_, hnames⟩
  exact hrest.trans (congrArg (· ++ rest) (hskipped'.trans (by rw [hskipped]; rfl)))

/-- With one new file at most, as many as are ever written for one file, a commit is refused where
`checkTargets` fails, in the same words, and has written nothing then. And in a whole migration,
whatever file is skipped, and for whatever reason, the disk is left as it was found: the skipped
files are those whose attempts have failed, apart from a package manifest, and each attempt begins
where the one before has ended. -/
theorem skipped_untouched :
    (∀ (owner : Path) (writes : List PendingWrite) (disk : Disk),
      (writes.filter (·.createOnly)).length ≤ 1 →
      (∀ o a, (commit owner writes disk).1 = .error (.artifactExists o a) ↔
        checkTargets owner writes disk = .error (.artifactExists o a)) ∧
      (∀ fault, checkTargets owner writes disk = .error fault →
        ∃ a, fault = .artifactExists owner a) ∧
      (checkTargets owner writes disk ≠ .ok () → (commit owner writes disk).2 = disk)) ∧
    (∀ pass ∈ Pass.standard, ∀ entry script patch, pass.patch entry script = .ok patch →
      patch.artifacts.length ≤ 1) ∧
    (∀ options disk plan, Project.load options disk = .ok plan →
      ∀ group ∈ plan.writes, (group.2.filter (·.createOnly)).length ≤ 1) ∧
    ∀ (options : Options) (available : Nat) (disk : Disk) (report : Report),
      disk.WellFormed → (migrate options available disk).1 = .ok report →
      Linked disk (migrationAttempts options available disk)
        (migrate options available disk).2 ∧
      (∃ rest, report.skipped =
          (migrationAttempts options available disk).flatMap Attempt.skips ++ rest ∧
        ∀ k ∈ rest, k.pass = "dependencies") ∧
      ∀ a ∈ migrationAttempts options available disk, a.skips ≠ [] → a.after = a.before := by
  refine ⟨?_, ?_, ?_, ?_⟩
  · intro owner writes disk hone
    obtain ⟨hiff, hdisk⟩ := commit_refused_iff owner hone disk
    refine ⟨hiff, ?_, hdisk⟩
    intro fault hfault
    rw [checkTargets] at hfault
    split at hfault
    · cases hfault
      exact ⟨_, rfl⟩
    · cases hfault
  · intro pass hpass entry script patch hpatch
    rcases Pass.keepsToFile_of_mem hpass entry script patch hpatch with hnone | ⟨text, hone⟩
    · simp [hnone]
    · simp [hone]
  · intro options disk plan hload group hgroup
    obtain ⟨wish, hwrites⟩ := ((Project.load_sound hload).groups group hgroup).own
    rw [hwrites]
    exact wish.length_creates_le group.1
  · intro options available disk report hwf hmigrate
    cases hload : Project.load options disk with
    | error fault =>
      unfold migrate migrateWith at hmigrate
      rw [hload] at hmigrate
      cases hmigrate
    | ok plan =>
      obtain ⟨report', skips, rest, hreport, htrail, hskipped, hnames⟩ :=
        migrate_trail available hwf hload
      rw [hmigrate] at hreport
      cases hreport
      exact ⟨htrail.linked, ⟨rest, by rw [htrail.skipped, hskipped], hnames⟩, htrail.harmless⟩

/-- An entry module whose configuration cannot move, as there is a module of that name. -/
def takenDisk : Disk :=
  configuredDisk.putAt ["src", "app.config.js"] (.text "export default 0".toList)

set_option maxRecDepth 100000 in
theorem skipped_untouched_taken :
    takenDisk.WellFormed ∧ ∃ a ∈ migrationAttempts .standard 1 takenDisk,
      a.skips = [.ofFault ⟨"./src/app.js"⟩ "project"
        (.artifactExists ⟨"./src/app.js"⟩ ⟨"./src/app.config.js"⟩)] ∧ a.after = a.before := by
  have hwf : takenDisk.WellFormed := by decide +kernel
  obtain ⟨hok, hfailed⟩ : (migrate .standard 1 takenDisk).1.toOption.any (fun _ => true) = true ∧
      ((migrationAttempts .standard 1 takenDisk).any fun a =>
        a.skips == [.ofFault ⟨"./src/app.js"⟩ "project"
          (.artifactExists ⟨"./src/app.js"⟩ ⟨"./src/app.config.js"⟩)]) = true := by
    unfold takenDisk configuredDisk projectDisk
    dsimp only
    repeat rw [String.toList_ofList]
    decide +kernel
  obtain ⟨report, hreport, -⟩ := exists_ok_of_any hok
  obtain ⟨a, ha, hskips⟩ := List.any_eq_true.mp hfailed
  rw [beq_iff_eq] at hskips
  exact ⟨hwf, a, ha, hskips,
    (skipped_untouched.2.2.2 .standard 1 takenDisk report hwf hreport).2.2 a ha (by simp [hskips])⟩

end Codemod
