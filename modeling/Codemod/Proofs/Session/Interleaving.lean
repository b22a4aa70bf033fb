import Codemod.Proofs.Disk.Agree
import Codemod.Proofs.Session.Chunks
import Mathlib.Data.List.Find
import Mathlib.Logic.Function.Iterate

/-!
# Codemod.Proofs.Session.Interleaving

The workers of a pass at the same time.

A `Worker` takes one step after the other: it reads a file, makes the writes that the pass asks for,
each of which happens as a whole, and takes down how that went. The workers of a `Crew` share the
disk, and a schedule says whose turn it is.

* `steps_processAll`: a worker that is alone does what `WorkerView.processAll` says.
* `Crew.turn_solo`, `Crew.play_solo`: where no two workers come to the same place, each of them
  sees what it would see alone, at every moment of every schedule.
* `runPass_interleaved`: so once all are done, the disk and what the session has taken in are what
  they are when the files are processed one after the other.
* `runPass_two_names`: with two names of one file in the list this may fail.
-/

namespace Codemod

/-- A step of a commit: one write or, in a dry run, a look at all places. -/
inductive Move where
  | write (w : PendingWrite)
  | check (writes : List PendingWrite)

namespace Move

def make (owner : Path) : Move → Disk → Except Fault Disk
  | write w, disk => w.perform owner disk
  | check writes, disk => (checkTargets owner writes disk).map fun _ => disk

/-- Makes moves until one fails. -/
def makeAll (owner : Path) : List Move → Disk → Except Fault Unit × Disk
  | [], disk => (.ok (), disk)
  | move :: moves, disk =>
    match move.make owner disk with
    | .ok disk => makeAll owner moves disk
    | .error fault => (.error fault, disk)

/-- The moves of a commit, in order. -/
def ofWrites (dryRun : Bool) (writes : List PendingWrite) : List Move :=
  if dryRun then [.check writes] else (commitOrder writes).map .write

/-- The paths that a move looks at or writes to. -/
def targets : Move → List Path
  | write w => [w.path]
  | check writes => writes.map (·.path)

end Move

/-- A file that was read, and the moves that are left to be made for it. -/
structure Job where
  path : Path
  text : Except Fault Text
  moves : List Move

structure Worker where
  /-- The files that it has yet to come to. -/
  files : List Path
  job : Option Job
  report : WorkerReport

namespace Worker

def start (files : List Path) : Worker :=
  ⟨files, none, .empty⟩

def Finished (w : Worker) : Prop :=
  w.files = [] ∧ w.job = none

instance (w : Worker) : Decidable w.Finished :=
  decidable_of_iff (w.files = [] ∧ w.job.isNone = true) (by
    rw [Finished, Option.isNone_iff_eq_none])

end Worker

/-- Workers that share a disk. -/
structure Crew where
  workers : List Worker
  disk : Disk

namespace WorkerView

/-- The moves that a pass asks for, given the text of a file. -/
def moves (view : WorkerView) (path : Path) (text : Except Fault Text) : List Move :=
  Move.ofWrites view.dryRun ((view.pass.wish view.entry path text).writes path)

/-- One step of a worker. One that has finished stays as it is. -/
def step (view : WorkerView) : Worker × Disk → Worker × Disk
  | (⟨files, none, report⟩, disk) =>
    match files with
    | [] => (⟨[], none, report⟩, disk)
    | path :: files =>
      let text := view.load disk path
      (⟨files, some ⟨path, text, view.moves path text⟩, view.note path text report⟩, disk)
  | (⟨files, some ⟨path, text, moves⟩, report⟩, disk) =>
    match moves with
    | [] => (⟨files, none, add report (view.answer path text (.ok ()))⟩, disk)
    | move :: moves =>
      match move.make path disk with
      | .ok disk => (⟨files, some ⟨path, text, moves⟩, report⟩, disk)
      | .error fault => (⟨files, none, add report (view.answer path text (.error fault))⟩, disk)

end WorkerView

namespace Crew

def start (chunks : List (List Path)) (disk : Disk) : Crew :=
  ⟨chunks.map Worker.start, disk⟩

/-- The `i`-th worker takes a step. -/
def turn (view : WorkerView) (crew : Crew) (i : Nat) : Crew :=
  match crew.workers[i]? with
  | none => crew
  | some w =>
    let (w, disk) := view.step (w, crew.disk)
    ⟨crew.workers.set i w, disk⟩

def play (view : WorkerView) (crew : Crew) (schedule : List Nat) : Crew :=
  schedule.foldl (turn view) crew

def Finished (crew : Crew) : Prop :=
  ∀ w ∈ crew.workers, w.Finished

instance (crew : Crew) : Decidable crew.Finished :=
  inferInstanceAs (Decidable (∀ w ∈ crew.workers, w.Finished))

def reports (crew : Crew) : List WorkerReport :=
  crew.workers.map (·.report)

end Crew

/-! ### A worker alone -/

namespace Move

theorem makeAll_write (owner : Path) (writes : List PendingWrite) (disk : Disk) :
    makeAll owner (writes.map .write) disk = performAll owner writes disk := by
  induction writes generalizing disk with
  | nil => rfl
  | cons w writes ih =>
    rw [List.map_cons, makeAll, performAll, make]
    cases w.perform owner disk with
    | ok disk => exact ih disk
    | error fault => rfl

theorem makeAll_ofWrites (dryRun : Bool) (owner : Path) (writes : List PendingWrite)
    (disk : Disk) :
    makeAll owner (ofWrites dryRun writes) disk = settle dryRun owner writes disk := by
  cases dryRun with
  | false => exact makeAll_write owner (commitOrder writes) disk
  | true =>
    rw [ofWrites, settle, if_pos rfl, if_pos rfl, makeAll, make]
    cases checkTargets owner writes disk <;> rfl

end Move

namespace WorkerView

variable {view : WorkerView} {path : Path} {files : List Path} {report : WorkerReport}

/-- Every file has its result, in order. -/
theorem paths_processAll (hkeep : view.pass.KeepsToFile) (files : List Path) (disk : Disk) :
    (view.processAll files .empty disk).1.results.map (·.path) = files := by
  induction files generalizing disk with
  | nil => rfl
  | cons path files ih =>
    rw [processAll_cons, processAll_append, process_eq hkeep]
    simp only [WorkerReport.append, add, results_note, WorkerReport.empty, List.nil_append,
      List.singleton_append, List.map_cons, path_answer]
    exact congrArg (path :: ·) (ih _)

theorem steps_job (view : WorkerView) (files : List Path) (path : Path) (text : Except Fault Text)
    (moves : List Move) (report : WorkerReport) (disk : Disk) :
    ∃ k, view.step^[k] (⟨files, some ⟨path, text, moves⟩, report⟩, disk) =
      (⟨files, none, add report (view.answer path text (Move.makeAll path moves disk).1)⟩,
        (Move.makeAll path moves disk).2) := by
  induction moves generalizing disk with
  | nil => exact ⟨1, rfl⟩
  | cons move moves ih =>
    cases hmake : move.make path disk with
    | error fault => exact ⟨1, by simp [step, Move.makeAll, hmake]⟩
    | ok disk' =>
      obtain ⟨k, hk⟩ := ih disk'
      refine ⟨k + 1, ?_⟩
      rw [Function.iterate_succ_apply, step, Move.makeAll, hmake]
      exact hk

theorem steps_process (hkeep : view.pass.KeepsToFile) (path : Path) (files : List Path)
    (report : WorkerReport) (disk : Disk) :
    ∃ k, view.step^[k] (⟨path :: files, none, report⟩, disk) =
      (⟨files, none, (view.process path report disk).1⟩, (view.process path report disk).2) := by
  obtain ⟨k, hk⟩ := view.steps_job files path (view.load disk path)
    (view.moves path (view.load disk path)) (view.note path (view.load disk path) report) disk
  refine ⟨k + 1, ?_⟩
  rw [Function.iterate_succ_apply, step, hk, process_eq hkeep, moves, Move.makeAll_ofWrites]
  rfl

theorem steps_processAll (hkeep : view.pass.KeepsToFile) (files : List Path)
    (report : WorkerReport) (disk : Disk) :
    ∃ k, view.step^[k] (⟨files, none, report⟩, disk) =
      (⟨[], none, (view.processAll files report disk).1⟩,
        (view.processAll files report disk).2) := by
  induction files generalizing report disk with
  | nil => exact ⟨0, rfl⟩
  | cons path files ih =>
    obtain ⟨k, hk⟩ := steps_process hkeep path files report disk
    obtain ⟨k', hk'⟩ := ih (view.process path report disk).1 (view.process path report disk).2
    refine ⟨k' + k, ?_⟩
    rw [Function.iterate_add_apply, hk, hk']
    rfl

theorem step_of_finished {w : Worker} (h : w.Finished) (disk : Disk) :
    view.step (w, disk) = (w, disk) := by
  obtain ⟨files, job, report⟩ := w
  obtain ⟨rfl, rfl⟩ := h
  rfl

/-- A worker can finish in one way only. -/
theorem steps_unique {c : Worker × Disk} {k k' : Nat} (h : (view.step^[k] c).1.Finished)
    (h' : (view.step^[k'] c).1.Finished) : view.step^[k] c = view.step^[k'] c := by
  have hstays : ∀ k m, (view.step^[k] c).1.Finished →
      view.step^[m + k] c = view.step^[k] c := by
    intro k m hfinished
    rw [Function.iterate_add_apply]
    exact Function.iterate_fixed (step_of_finished hfinished _) m
  rcases Nat.le_total k k' with hle | hle
  · have hsum := hstays k (k' - k) h
    rw [Nat.sub_add_cancel hle] at hsum
    exact hsum.symm
  · have hsum := hstays k' (k - k') h'
    rwa [Nat.sub_add_cancel hle] at hsum

end WorkerView

/-! ### Places -/

namespace PendingWrite

theorem perform_eq {w : PendingWrite} {disk : Disk} {loc : Location} (owner : Path)
    (h : disk.locate w.path = .ok loc) :
    w.perform owner disk =
      if w.createOnly && disk.isThere w.path then .error (.artifactExists owner w.path)
      else if disk.isDirAt loc then .error (Obstacle.isDirectory.fault w.path)
      else .ok (disk.putAt loc (.text w.contents)) := by
  rw [perform, Disk.put, h]

end PendingWrite

namespace Move

variable {places others : Location → Prop} {disk disk' : Disk} {move : Move}

/-- Whatever the move looks at or writes to is at these places. -/
def Within (places : Location → Prop) (disk : Disk) (move : Move) : Prop :=
  ∀ path ∈ move.targets, ∃ loc, disk.locate path = .ok loc ∧ places loc

theorem Within.of_sameDirs (h : move.Within places disk) (hsame : disk.SameDirs disk') :
    move.Within places disk' := by
  intro path hpath
  obtain ⟨loc, hloc, hplace⟩ := h path hpath
  exact ⟨loc, hsame.locate hloc, hplace⟩

/-- Two disks that agree at the places of a move still do so once it is made, or refuse it. -/
theorem make_agreeOn (owner : Path) (h : move.Within places disk)
    (hagree : disk.AgreeOn places disk') :
    (∃ fault, move.make owner disk = .error fault ∧ move.make owner disk' = .error fault) ∨
      ∃ next next', move.make owner disk = .ok next ∧ move.make owner disk' = .ok next' ∧
        next.AgreeOn places next' := by
  cases move with
  | write w =>
    obtain ⟨loc, hloc, hplace⟩ := h w.path List.mem_cons_self
    have hthere := hagree.isThere hloc hplace
    have hdir := hagree.sameDirs.isDirAt loc
    simp only [make, PendingWrite.perform_eq owner hloc,
      PendingWrite.perform_eq owner (hagree.sameDirs.locate hloc), hthere, hdir]
    by_cases htaken : (w.createOnly && disk.isThere w.path) = true
    · exact .inl ⟨_, if_pos htaken, if_pos htaken⟩
    · rw [if_neg htaken, if_neg htaken]
      by_cases hisDir : disk.isDirAt loc = true
      · exact .inl ⟨_, if_pos hisDir, if_pos hisDir⟩
      · exact .inr ⟨_, _, if_neg hisDir, if_neg hisDir, hagree.putAt loc (.text w.contents)⟩
  | check writes =>
    have hcheck : checkTargets owner writes disk' = checkTargets owner writes disk := by
      have hthere : ∀ w ∈ writes, disk'.isThere w.path = disk.isThere w.path := by
        intro w hw
        obtain ⟨loc, hloc, hplace⟩ := h w.path (List.mem_map.mpr ⟨w, hw, rfl⟩)
        exact hagree.isThere hloc hplace
      rw [checkTargets, checkTargets, List.find?_congr fun w hw => by rw [hthere w hw]]
    rw [make, make, hcheck]
    cases checkTargets owner writes disk with
    | error fault => exact .inl ⟨fault, rfl, rfl⟩
    | ok _ => exact .inr ⟨disk, disk', rfl, rfl, hagree⟩

/-- A move changes nothing at other places. -/
theorem make_frame {owner : Path} (h : move.Within places disk)
    (hothers : ∀ loc, others loc → ¬ places loc) (hmake : move.make owner disk = .ok disk') :
    disk.AgreeOn others disk' := by
  cases move with
  | write w =>
    obtain ⟨loc, hloc, hplace⟩ := h w.path List.mem_cons_self
    rw [make, PendingWrite.perform_eq owner hloc] at hmake
    split at hmake
    · cases hmake
    · split at hmake
      · cases hmake
      · cases hmake
        exact .of_putAt disk (fun hother => hothers loc hother hplace) (.text w.contents)
  | check writes =>
    rw [make] at hmake
    cases hcheck : checkTargets owner writes disk with
    | error fault =>
      rw [hcheck] at hmake
      cases hmake
    | ok _ =>
      rw [hcheck] at hmake
      cases hmake
      exact .refl others disk

theorem targets_ofWrites {dryRun : Bool} {wish : Wish} {path target : Path} {move : Move}
    (hmove : move ∈ ofWrites dryRun (wish.writes path)) (htarget : target ∈ move.targets) :
    target = path ∨ target = path.configModule := by
  have hwrites : ∀ w ∈ wish.writes path, w.path = path ∨ w.path = path.configModule := by
    obtain ⟨moved, rewritten⟩ := wish
    cases moved <;> cases rewritten <;>
      simp [Wish.writes, PendingWrite.create, PendingWrite.overwrite]
  cases dryRun with
  | true =>
    rw [List.mem_singleton.mp hmove] at htarget
    obtain ⟨w, hw, rfl⟩ := List.mem_map.mp htarget
    exact hwrites w hw
  | false =>
    obtain ⟨w, hw, rfl⟩ := List.mem_map.mp hmove
    rw [Wish.commitOrder_writes] at hw
    rw [List.mem_singleton.mp htarget]
    exact hwrites w hw

end Move

namespace Disk

/-- The path leads to a place, whether or not something is there. -/
def HasPlace (disk : Disk) (path : Path) : Prop :=
  ∃ loc, disk.locate path = .ok loc

/-- The places of files and of their configuration modules. -/
def Reach (disk : Disk) (files : List Path) (loc : Location) : Prop :=
  ∃ path ∈ files, disk.locate path = .ok loc ∨ disk.locate path.configModule = .ok loc

end Disk

namespace Worker

variable {places others : Location → Prop} {disk disk' : Disk} {w : Worker}

/-- All that is left for a worker to do is at these places. -/
structure Within (places : Location → Prop) (disk : Disk) (w : Worker) : Prop where
  files : ∀ path ∈ w.files, (∃ loc, disk.locate path = .ok loc ∧ places loc) ∧
    ∃ loc, disk.locate path.configModule = .ok loc ∧ places loc
  moves : ∀ job, w.job = some job → ∀ move ∈ job.moves, move.Within places disk

theorem Within.of_sameDirs (h : w.Within places disk) (hsame : disk.SameDirs disk') :
    w.Within places disk' where
  files path hpath := by
    obtain ⟨⟨loc, hloc, hplace⟩, loc', hloc', hplace'⟩ := h.files path hpath
    exact ⟨⟨loc, hsame.locate hloc, hplace⟩, loc', hsame.locate hloc', hplace'⟩
  moves job hjob move hmove := (h.moves job hjob move hmove).of_sameDirs hsame

theorem within_start {files : List Path}
    (h : ∀ path ∈ files, disk.HasPlace path ∧ disk.HasPlace path.configModule) :
    (start files).Within (disk.Reach files) disk where
  files path hpath := by
    obtain ⟨⟨loc, hloc⟩, loc', hloc'⟩ := h path hpath
    exact ⟨⟨loc, hloc, path, hpath, .inl hloc⟩, loc', hloc', path, hpath, .inr hloc'⟩
  moves := nofun

end Worker

namespace WorkerView

variable {places others : Location → Prop} {disk disk' : Disk} {w : Worker}

/-- What a worker does next depends on its own places only. -/
theorem step_agreeOn (view : WorkerView) (hw : w.Within places disk)
    (h : disk.AgreeOn places disk') :
    (view.step (w, disk')).1 = (view.step (w, disk)).1 ∧
      (view.step (w, disk)).2.AgreeOn places (view.step (w, disk')).2 := by
  obtain ⟨files, job, report⟩ := w
  match files, job with
  | [], none => exact ⟨rfl, h⟩
  | path :: files, none =>
    obtain ⟨⟨loc, hloc, hplace⟩, -⟩ := hw.files path List.mem_cons_self
    have hload : view.load disk' path = view.load disk path := by
      rw [load, load, h.read hloc hplace]
    refine ⟨?_, h⟩
    simp only [step, hload]
  | files, some ⟨path, text, []⟩ => exact ⟨rfl, h⟩
  | files, some ⟨path, text, move :: moves⟩ =>
    have hmove := hw.moves _ rfl move List.mem_cons_self
    rcases Move.make_agreeOn path hmove h with
      ⟨fault, hmake, hmake'⟩ | ⟨next, next', hmake, hmake', hnext⟩
    · simp only [step, hmake, hmake']
      exact ⟨trivial, h⟩
    · simp only [step, hmake, hmake']
      exact ⟨trivial, hnext⟩

/-- A worker changes nothing at other places, and goes on to keep to its own ones. -/
theorem step_within (view : WorkerView) (hw : w.Within places disk)
    (hothers : ∀ loc, others loc → ¬ places loc) :
    (view.step (w, disk)).1.Within places disk ∧ disk.AgreeOn others (view.step (w, disk)).2 := by
  obtain ⟨files, job, report⟩ := w
  match files, job with
  | [], none => exact ⟨hw, .refl others disk⟩
  | path :: files, none =>
    refine ⟨⟨fun p hp => hw.files p (List.mem_cons_of_mem path hp), ?_⟩, .refl others disk⟩
    rintro job hjob move hmove target htarget
    cases hjob
    obtain ⟨hplace, hplace'⟩ := hw.files path List.mem_cons_self
    rcases Move.targets_ofWrites hmove htarget with rfl | rfl
    · exact hplace
    · exact hplace'
  | files, some ⟨path, text, []⟩ => exact ⟨⟨hw.files, nofun⟩, .refl others disk⟩
  | files, some ⟨path, text, move :: moves⟩ =>
    have hmoves := hw.moves _ rfl
    cases hmake : move.make path disk with
    | error fault =>
      simp only [step, hmake]
      exact ⟨⟨hw.files, nofun⟩, .refl others disk⟩
    | ok next =>
      simp only [step, hmake]
      refine ⟨⟨hw.files, ?_⟩,
        Move.make_frame (hmoves move List.mem_cons_self) hothers hmake⟩
      rintro job hjob m hm
      cases hjob
      exact hmoves m (List.mem_cons_of_mem move hm)

theorem steps_within (view : WorkerView) (hw : w.Within places disk)
    (hothers : ∀ loc, others loc → ¬ places loc) (k : Nat) :
    (view.step^[k] (w, disk)).1.Within places disk ∧
      disk.AgreeOn others (view.step^[k] (w, disk)).2 := by
  induction k with
  | zero => exact ⟨hw, .refl others disk⟩
  | succ k ih =>
    obtain ⟨hwithin, hframe⟩ := ih
    rw [Function.iterate_succ_apply']
    obtain ⟨hwithin', hframe'⟩ :=
      step_within view (hwithin.of_sameDirs hframe.sameDirs) hothers
    exact ⟨hwithin'.of_sameDirs hframe.sameDirs.symm, hframe.trans hframe'⟩

end WorkerView

/-! ### Workers at the same time -/

/-- Every file has its place, and no two chunks come to the same one. -/
structure Disk.Separates (disk : Disk) (chunks : List (List Path)) : Prop where
  places : ∀ chunk ∈ chunks, ∀ path ∈ chunk,
    disk.HasPlace path ∧ disk.HasPlace path.configModule
  apart : ∀ {i j : Nat} {chunk chunk' : List Path}, i ≠ j → chunks[i]? = some chunk →
    chunks[j]? = some chunk' → ∀ loc, disk.Reach chunk loc → ¬ disk.Reach chunk' loc

namespace Crew

variable {view : WorkerView} {disk : Disk} {chunks : List (List Path)} {crew crew' : Crew}

/-- Each worker is where it would be alone, and sees at its places what it would see alone. -/
structure Solo (view : WorkerView) (disk : Disk) (chunks : List (List Path)) (crew : Crew) :
    Prop where
  length : crew.workers.length = chunks.length
  each : ∀ {i : Nat} {w : Worker} {chunk : List Path}, crew.workers[i]? = some w →
    chunks[i]? = some chunk → ∃ k mid, view.step^[k] (.start chunk, disk) = (w, mid) ∧
      mid.AgreeOn (disk.Reach chunk) crew.disk
  rest : disk.AgreeOn (fun loc => ∀ chunk ∈ chunks, ¬ disk.Reach chunk loc) crew.disk

theorem solo_start (view : WorkerView) (disk : Disk) (chunks : List (List Path)) :
    Solo view disk chunks (start chunks disk) where
  length := by simp [start]
  each {i w chunk} hw hchunk := by
    rw [start, List.getElem?_map, hchunk] at hw
    cases hw
    exact ⟨0, disk, rfl, .refl _ disk⟩
  rest := .refl _ disk

theorem turn_eq {i : Nat} {w : Worker} (h : crew.workers[i]? = some w) :
    crew.turn view i =
      ⟨crew.workers.set i (view.step (w, crew.disk)).1, (view.step (w, crew.disk)).2⟩ := by
  rw [turn, h]

/-- One worker takes a step, and all of them go on as if they were alone. -/
theorem turn_solo (hchunks : disk.Separates chunks) (h : Solo view disk chunks crew) (i : Nat) :
    Solo view disk chunks (crew.turn view i) := by
  cases hi : crew.workers[i]? with
  | none =>
    rw [turn, hi]
    exact h
  | some w =>
    obtain ⟨hlt, -⟩ := List.getElem?_eq_some_iff.mp hi
    obtain ⟨chunk, hchunk⟩ : ∃ chunk, chunks[i]? = some chunk :=
      ⟨_, List.getElem?_eq_getElem (h.length ▸ hlt)⟩
    have hmem := List.mem_of_getElem? hchunk
    obtain ⟨k, mid, hsteps, hagree⟩ := h.each hi hchunk
    -- the worker keeps to its places on the disk that it would have alone, hence on this one
    have hwithin : w.Within (disk.Reach chunk) crew.disk := by
      have hsolo := WorkerView.steps_within view
        (Worker.within_start (hchunks.places chunk hmem)) (fun loc (hloc : False) => hloc.elim) k
      rw [hsteps] at hsolo
      exact hsolo.1.of_sameDirs h.rest.sameDirs
    have hframe {others : Location → Prop} (hothers : ∀ loc, others loc → ¬ disk.Reach chunk loc) :
        crew.disk.AgreeOn others (view.step (w, crew.disk)).2 :=
      (WorkerView.step_within view hwithin hothers).2
    rw [turn_eq hi]
    refine ⟨by simp [h.length], ?_, h.rest.trans (hframe fun loc hloc => hloc chunk hmem)⟩
    intro j w' chunk' hw' hchunk'
    by_cases hij : i = j
    · subst hij
      rw [hchunk] at hchunk'
      cases hchunk'
      simp only [List.getElem?_set_self hlt, Option.some.injEq] at hw'
      obtain ⟨hsame, hnext⟩ := WorkerView.step_agreeOn view
        (hwithin.of_sameDirs hagree.sameDirs.symm) hagree
      refine ⟨k + 1, (view.step (w, mid)).2, ?_, hnext⟩
      rw [Function.iterate_succ_apply', hsteps, ← hw', hsame]
    · rw [List.getElem?_set_ne hij] at hw'
      obtain ⟨k', mid', hsteps', hagree'⟩ := h.each hw' hchunk'
      exact ⟨k', mid', hsteps', hagree'.trans (hframe (hchunks.apart (Ne.symm hij) hchunk' hchunk))⟩

theorem play_solo (hchunks : disk.Separates chunks) (h : Solo view disk chunks crew)
    (schedule : List Nat) : Solo view disk chunks (crew.play view schedule) := by
  induction schedule generalizing crew with
  | nil => exact h
  | cons i schedule ih => exact ih (turn_solo hchunks h i)

/-- Once all workers are done, each has done what it does alone. -/
theorem Solo.each_of_finished (hkeep : view.pass.KeepsToFile) (h : Solo view disk chunks crew)
    (hfinished : crew.Finished) {i : Nat} {w : Worker} {chunk : List Path}
    (hw : crew.workers[i]? = some w) (hchunk : chunks[i]? = some chunk) :
    w.report = (view.processAll chunk .empty disk).1 ∧
      (view.processAll chunk .empty disk).2.AgreeOn (disk.Reach chunk) crew.disk := by
  obtain ⟨k, mid, hsteps, hagree⟩ := h.each hw hchunk
  obtain ⟨k', hsteps'⟩ := WorkerView.steps_processAll hkeep chunk .empty disk
  have hdone : (view.step^[k] (.start chunk, disk)).1.Finished := by
    rw [hsteps]
    exact hfinished w (List.mem_of_getElem? hw)
  have hdone' : (view.step^[k'] (.start chunk, disk)).1.Finished := by
    rw [Worker.start, hsteps']
    exact ⟨rfl, rfl⟩
  have hunique := WorkerView.steps_unique hdone hdone'
  rw [hsteps, Worker.start, hsteps'] at hunique
  obtain ⟨rfl, rfl⟩ := Prod.mk.inj hunique
  exact ⟨rfl, hagree⟩

/-- It does not matter in what order the workers get done. -/
theorem Solo.unique (hkeep : view.pass.KeepsToFile) (h : Solo view disk chunks crew)
    (h' : Solo view disk chunks crew') (hfinished : crew.Finished) (hfinished' : crew'.Finished) :
    crew.reports = crew'.reports ∧ crew.disk.Alike crew'.disk := by
  constructor
  · apply List.ext_getElem?
    intro i
    rw [reports, reports, List.getElem?_map, List.getElem?_map]
    by_cases hi : i < chunks.length
    · have hw := List.getElem?_eq_getElem (h.length ▸ hi : i < crew.workers.length)
      have hw' := List.getElem?_eq_getElem (h'.length ▸ hi : i < crew'.workers.length)
      have hchunk := List.getElem?_eq_getElem hi
      have hreport := (h.each_of_finished hkeep hfinished hw hchunk).1
      have hreport' := (h'.each_of_finished hkeep hfinished' hw' hchunk).1
      rw [hw, hw', Option.map_some, Option.map_some, hreport, hreport']
    · rw [List.getElem?_eq_none (by rw [h.length]; omega),
        List.getElem?_eq_none (by rw [h'.length]; omega)]
  · refine ⟨h.rest.sameDirs.symm.trans h'.rest.sameDirs, fun loc _ => ?_⟩
    by_cases hreach : ∃ chunk ∈ chunks, disk.Reach chunk loc
    · obtain ⟨chunk, hmem, hloc⟩ := hreach
      obtain ⟨i, hi, hchunk⟩ := List.mem_iff_getElem.mp hmem
      have hchunk : chunks[i]? = some chunk := by rw [List.getElem?_eq_getElem hi, hchunk]
      have hw := List.getElem?_eq_getElem (h.length ▸ hi : i < crew.workers.length)
      have hw' := List.getElem?_eq_getElem (h'.length ▸ hi : i < crew'.workers.length)
      have hagree := (h.each_of_finished hkeep hfinished hw hchunk).2
      have hagree' := (h'.each_of_finished hkeep hfinished' hw' hchunk).2
      exact (hagree.symm.trans hagree').contents loc hloc
    · have hrest : ∀ chunk ∈ chunks, ¬ disk.Reach chunk loc :=
        fun chunk hmem hloc => hreach ⟨chunk, hmem, hloc⟩
      exact (h.rest.symm.trans h'.rest).contents loc hrest

theorem play_replicate (view : WorkerView) (front back : List Worker) (w : Worker) (disk : Disk)
    (k : Nat) :
    play view ⟨front ++ w :: back, disk⟩ (List.replicate k front.length) =
      ⟨front ++ (view.step^[k] (w, disk)).1 :: back, (view.step^[k] (w, disk)).2⟩ := by
  induction k generalizing w disk with
  | zero => rfl
  | succ k ih =>
    have hturn : turn view ⟨front ++ w :: back, disk⟩ front.length =
        ⟨front ++ (view.step (w, disk)).1 :: back, (view.step (w, disk)).2⟩ := by
      simp [turn]
    rw [List.replicate_succ, play, List.foldl_cons, hturn, Function.iterate_succ_apply]
    exact ih _ _

theorem play_inOrder (hkeep : view.pass.KeepsToFile) (front : List Worker)
    (chunks : List (List Path)) (disk : Disk) :
    ∃ schedule, play view ⟨front ++ chunks.map .start, disk⟩ schedule =
      ⟨front ++ (view.processChunks chunks disk).1.map fun report => ⟨[], none, report⟩,
        (view.processChunks chunks disk).2⟩ := by
  induction chunks generalizing front disk with
  | nil => exact ⟨[], rfl⟩
  | cons chunk chunks ih =>
    obtain ⟨k, hk⟩ := WorkerView.steps_processAll hkeep chunk .empty disk
    obtain ⟨schedule, hschedule⟩ :=
      ih (front ++ [⟨[], none, (view.processAll chunk .empty disk).1⟩])
        (view.processAll chunk .empty disk).2
    refine ⟨List.replicate k front.length ++ schedule, ?_⟩
    have hfirst := play_replicate view front (chunks.map .start) (.start chunk) disk k
    rw [Worker.start, hk] at hfirst
    rw [play, List.foldl_append]
    simp only [List.append_assoc, List.singleton_append] at hschedule
    rw [WorkerView.processChunks_cons, List.map_cons, List.map_cons, ← hschedule]
    exact congrArg (fun crew => play view crew schedule) hfirst

/-- The workers may well go one after the other. -/
theorem exists_schedule (view : WorkerView) (hkeep : view.pass.KeepsToFile)
    (chunks : List (List Path)) (disk : Disk) :
    ∃ schedule, (play view (start chunks disk) schedule).Finished ∧
      (play view (start chunks disk) schedule).reports = (view.processChunks chunks disk).1 ∧
      (play view (start chunks disk) schedule).disk = (view.processChunks chunks disk).2 := by
  obtain ⟨schedule, hplay⟩ := play_inOrder hkeep [] chunks disk
  simp only [List.nil_append] at hplay
  refine ⟨schedule, ?_⟩
  rw [start, hplay]
  refine ⟨?_, ?_, rfl⟩
  · intro w hw
    obtain ⟨report, -, rfl⟩ := List.mem_map.mp hw
    exact ⟨rfl, rfl⟩
  · rw [reports, List.map_map]
    exact List.map_id _

end Crew

namespace Disk

variable {disk : Disk} {files : List Path} {chunks : List (List Path)}

theorem pairwise_flatten_apart {R : Path → Path → Prop} (hsymm : ∀ p q, R p q → R q p)
    (h : chunks.flatten.Pairwise R) {i j : Nat} {chunk chunk' : List Path} (hij : i ≠ j)
    (hchunk : chunks[i]? = some chunk) (hchunk' : chunks[j]? = some chunk') {p q : Path}
    (hp : p ∈ chunk) (hq : q ∈ chunk') : R p q := by
  obtain ⟨hi, rfl⟩ := List.getElem?_eq_some_iff.mp hchunk
  obtain ⟨hj, rfl⟩ := List.getElem?_eq_some_iff.mp hchunk'
  have hpairs := List.pairwise_iff_getElem.mp (List.pairwise_flatten.mp h).2
  rcases Nat.lt_or_gt_of_ne hij with hlt | hlt
  · exact hpairs i j hi hj hlt p hp q hq
  · exact hsymm q p (hpairs j i hj hi hlt q hq p hp)

/-- Files at different places, whose configuration modules are at different places that are none of
theirs, are in nobody else's way, however they are split. -/
theorem separates_of_scattered (hflatten : chunks.flatten = files)
    (hplaces : ∀ p ∈ files, disk.HasPlace p ∧ disk.HasPlace p.configModule)
    (hpaths : disk.Scattered files) (htargets : disk.Scattered (files.map Path.configModule))
    (hfree : ∀ p ∈ files, ∀ q ∈ files, ¬ disk.SamePlace p.configModule q) :
    disk.Separates chunks := by
  subst hflatten
  have hmem {chunk : List Path} {i : Nat} {p : Path} (hchunk : chunks[i]? = some chunk)
      (hp : p ∈ chunk) : p ∈ chunks.flatten :=
    List.mem_flatten_of_mem (List.mem_of_getElem? hchunk) hp
  have hsymm (f : Path → Path) (p q : Path)
      (h : ∀ loc, disk.locate (f p) = .ok loc → disk.locate (f q) ≠ .ok loc) :
      ∀ loc, disk.locate (f q) = .ok loc → disk.locate (f p) ≠ .ok loc :=
    fun loc hq hp => h loc hp hq
  refine ⟨fun chunk hchunk p hp => hplaces p (List.mem_flatten_of_mem hchunk hp), ?_⟩
  rintro i j chunk chunk' hij hchunk hchunk' loc ⟨p, hp, hloc⟩ ⟨q, hq, hloc'⟩
  rcases hloc with hloc | hloc <;> rcases hloc' with hloc' | hloc'
  · exact pairwise_flatten_apart (hsymm id) hpaths hij hchunk hchunk' hp hq loc hloc hloc'
  · exact hfree q (hmem hchunk' hq) p (hmem hchunk hp) ⟨loc, hloc', hloc⟩
  · exact hfree p (hmem hchunk hp) q (hmem hchunk' hq) ⟨loc, hloc, hloc'⟩
  · exact pairwise_flatten_apart (hsymm Path.configModule) (List.pairwise_map.mp htargets) hij
      hchunk hchunk' hp hq loc hloc hloc'

end Disk

namespace Session

/-- The workers of a pass may take their turns in any order. The chunks are the files in order, and
no more than there are workers; some schedule gets all of them done; and whichever does, the disk
is then what it is when one worker goes through all files, and the session has taken in the report
of that one (`Session.taking`), which has a result for each file in order. That is also what
`runPass` answers. Every file is at a place of its own, and so is its configuration module: two
paths that lead to one place are two names of one file, and what the second of two readers finds
there is up to the schedule (`runPass_two_names`). So it is with a path that leads nowhere because
of a file on the way: before another worker has made that file, the path is refused differently. -/
theorem runPass_interleaved (s : Session) (pass : Pass) (entry : Path) (files : List Path)
    (disk : Disk) (hkeep : pass.KeepsToFile) (hworkers : 0 < s.workers)
    (hplaces : ∀ p ∈ files, disk.HasPlace p ∧ disk.HasPlace p.configModule)
    (hpaths : disk.Scattered files) (htargets : disk.Scattered (files.map Path.configModule))
    (hfree : ∀ p ∈ files, ∀ q ∈ files, ¬ disk.SamePlace p.configModule q) :
    let inOrder := (s.view pass entry).processAll files .empty disk
    (chunks s.workers files).flatten = files ∧ (chunks s.workers files).length ≤ s.workers ∧
    inOrder.1.results.map (·.path) = files ∧
    (∃ schedule, ((Crew.start (chunks s.workers files) disk).play (s.view pass entry)
      schedule).Finished) ∧
    (∀ schedule crew, crew = (Crew.start (chunks s.workers files) disk).play (s.view pass entry)
        schedule → crew.Finished →
      crew.disk.Alike inOrder.2 ∧
      crew.reports.foldl (mergeReport pass.name) s = s.taking pass.name inOrder.1) ∧
    s.runPass pass entry files disk = (s.taking pass.name inOrder.1, inOrder.2) := by
  intro inOrder
  have hflatten := flatten_chunks s.workers files
  have hseparates := Disk.separates_of_scattered hflatten hplaces hpaths htargets hfree
  have hsolo := Crew.play_solo hseparates
    (Crew.solo_start (s.view pass entry) disk (chunks s.workers files))
  obtain ⟨ordered, hdone, hreports, hdisk⟩ :=
    Crew.exists_schedule (s.view pass entry) hkeep (chunks s.workers files) disk
  obtain ⟨hmerged, hprocessed⟩ :=
    processChunks_eq (s.view pass entry) pass.name s (chunks s.workers files) disk
  rw [hflatten] at hmerged hprocessed
  rw [mergeReport_eq_taking] at hmerged
  refine ⟨hflatten, length_chunks_le hworkers files, WorkerView.paths_processAll hkeep files disk,
    ⟨ordered, hdone⟩, ?_, ?_⟩
  · rintro schedule crew rfl hfinished
    obtain ⟨hreports', hdisk'⟩ := (hsolo schedule).unique hkeep (hsolo ordered) hfinished hdone
    rw [hdisk, hprocessed] at hdisk'
    rw [hreports', hreports, hmerged]
    exact ⟨hdisk', rfl⟩
  · rw [runPass_eq, mergeReport_eq_taking]

/-- Two pages with a configuration each. -/
def pagesDisk : Disk :=
  let page := "export default class A \x7b config = \x7b a: 1 \x7d \x7d"
  (((Disk.bare []).makeDirAt ["src"]).putAt ["src", "a.js"] (.text page.toList)).putAt
    ["src", "b.js"] (.text page.toList)

/-- Two workers take turns; each reads its page before the other one has written anything. -/
theorem runPass_interleaved_pages :
    let s := Session.start Pass.standard .standard 2
    let files : List Path := [⟨"src/a.js"⟩, ⟨"src/b.js"⟩]
    let view := s.view pageConfigPass ⟨"src/app.js"⟩
    let crew := (Crew.start (chunks s.workers files) pagesDisk).play view [0, 1, 1, 0, 0, 1, 1, 0]
    crew.Finished ∧ crew.disk.isFile ⟨"src/a.config.js"⟩ = true ∧
      crew.disk.Alike (view.processAll files .empty pagesDisk).2 ∧
      crew.reports.foldl (mergeReport pageConfigPass.name) s =
        s.taking pageConfigPass.name (view.processAll files .empty pagesDisk).1 := by
  intro s files view crew
  have hfinished : crew.Finished := by decide +kernel
  have ha : pagesDisk.locate ⟨"src/a.js"⟩ = .ok ["src", "a.js"] := by decide +kernel
  have hb : pagesDisk.locate ⟨"src/b.js"⟩ = .ok ["src", "b.js"] := by decide +kernel
  have ha' : pagesDisk.locate (Path.configModule ⟨"src/a.js"⟩) = .ok ["src", "a.config.js"] := by
    decide +kernel
  have hb' : pagesDisk.locate (Path.configModule ⟨"src/b.js"⟩) = .ok ["src", "b.config.js"] := by
    decide +kernel
  obtain ⟨-, -, -, -, hinterleaved, -⟩ :=
    runPass_interleaved s pageConfigPass ⟨"src/app.js"⟩ files pagesDisk
      (Pass.keepsToFile_of_mem (by simp [Pass.standard])) (by decide)
      (by simp [files, Disk.HasPlace, ha, hb, ha', hb'])
      (by simp [files, Disk.Scattered, ha, hb]) (by simp [files, Disk.Scattered, ha', hb'])
      (by simp [files, Disk.SamePlace, ha, hb, ha', hb'])
  exact ⟨hfinished, by decide +kernel, hinterleaved _ crew rfl hfinished⟩

/-- Two names of one page. Both workers read it before either has written anything, and the second
one finds the place of the configuration taken. In order, the second one finds nothing to move. -/
theorem runPass_two_names :
    let s := Session.start Pass.standard .standard 2
    let files : List Path := [⟨"src/a.js"⟩, ⟨"src/x/../a.js"⟩]
    let disk := pagesDisk.makeDirAt ["src", "x"]
    let view := s.view pageConfigPass ⟨"src/app.js"⟩
    let crew := (Crew.start (chunks s.workers files) disk).play view [0, 1, 0, 0, 0, 1, 1]
    files.Pairwise (fun p q => p.same q = false) ∧
      (files.map Path.configModule).Pairwise (fun p q => p.same q = false) ∧
      (∀ p ∈ files, ∀ q ∈ files, p.configModule.same q = false) ∧
      crew.Finished ∧
      (crew.reports.foldl (mergeReport pageConfigPass.name) s).skipped.map (·.path) =
        [⟨"src/x/../a.js"⟩] ∧
      (s.runPass pageConfigPass ⟨"src/app.js"⟩ files disk).1.skipped = [] := by
  decide +kernel

end Session

end Codemod
