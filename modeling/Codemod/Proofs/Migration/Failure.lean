import Codemod.Migration
import Codemod.Proofs.Migration.Visits
import Codemod.Proofs.Project.Load

/-!
# Codemod.Proofs.Migration.Failure

A migration that fails has written nothing, and what it fails with.

Loading the project can fail, and starting the worker pool. These faults are fatal, with one
exception: a build configuration, an entry module or a configuration module of the app that is no
text is reported like any other file that cannot be read, as a fault of that file.
`migrate_failure` says that this is the only exception, and that it never fails to be one.
-/

namespace Codemod

variable {options : Options} {available : Nat} {refusal : Option String} {disk disk' : Disk}
  {fault : Fault}

theorem migrateWith_eq_error (h : migrateWith options available refusal disk =
      (.error fault, disk')) :
    disk' = disk ∧ (Project.load options disk = .error fault ∨
      ∃ plan reason, Project.load options disk = .ok plan ∧ refusal = some reason ∧
        fault = .workerPool reason) := by
  unfold migrateWith at h
  cases hload : Project.load options disk with
  | error e =>
    rw [hload] at h
    cases h
    exact ⟨rfl, .inl rfl⟩
  | ok plan =>
    rw [hload] at h
    cases refusal with
    | none => cases h
    | some reason =>
      cases h
      exact ⟨rfl, .inr ⟨plan, reason, rfl, rfl, rfl⟩⟩

theorem Project.not_garbled_of_load {plan : ProjectPlan}
    (h : Project.load options disk = .ok plan) :
    ¬ ∃ path, Project.Reads options disk path ∧ disk.Garbled path := by
  rintro ⟨path, hreads, hgarbled⟩
  rw [Project.load_of_garbled hreads hgarbled] at h
  cases h

theorem Project.fatal_iff_of_load (h : Project.load options disk = .error fault) :
    fault.severity = .fatal ↔
      ¬ ∃ path, Project.Reads options disk path ∧ disk.Garbled path := by
  constructor
  · rintro hfatal ⟨path, hreads, hgarbled⟩
    rw [Project.load_of_garbled hreads hgarbled] at h
    cases h
    cases hfatal
  · intro hnone
    rcases Project.load_eq_error h with hfatal | ⟨path, hreads, hgarbled, -⟩
    · exact hfatal
    · exact absurd ⟨path, hreads, hgarbled⟩ hnone

/-- A failed migration leaves the disk as it was. Its fault is that of loading the project, or that
of the worker pool where the project loads. It is fatal exactly unless one of the files which the
load comes to is no text; then it is a fault of that file. -/
theorem migrate_failure (options : Options) (available : Nat) (refusal : Option String)
    (disk : Disk) :
    (∀ fault disk', migrateWith options available refusal disk = (.error fault, disk') →
      disk' = disk ∧
      (Project.load options disk = .error fault ∨
        ∃ plan reason, Project.load options disk = .ok plan ∧ refusal = some reason ∧
          fault = .workerPool reason) ∧
      (fault.severity = .fatal ↔
        ¬ ∃ path, Project.Reads options disk path ∧ disk.Garbled path)) ∧
    (∀ fault, Project.load options disk = .error fault →
      (fault.severity = .fatal ↔
        ¬ ∃ path, Project.Reads options disk path ∧ disk.Garbled path)) ∧
    ∀ path, Project.Reads options disk path → disk.Garbled path →
      ∃ fault, migrateWith options available refusal disk = (.error fault, disk) ∧
        fault.severity = .perFile := by
  refine ⟨?_, fun fault h => Project.fatal_iff_of_load h, ?_⟩
  · intro fault disk' h
    obtain ⟨hdisk, hfault⟩ := migrateWith_eq_error h
    refine ⟨hdisk, hfault, ?_⟩
    rcases hfault with hload | ⟨plan, reason, hload, -, rfl⟩
    · exact Project.fatal_iff_of_load hload
    · exact iff_of_true rfl (Project.not_garbled_of_load hload)
  · intro path hreads hgarbled
    refine ⟨Obstacle.notText.fault path, ?_, rfl⟩
    unfold migrateWith
    rw [Project.load_of_garbled hreads hgarbled]

/-- A tree whose build configuration is a single byte that is no text. -/
def garbledDisk : Disk :=
  ((Disk.bare []).makeDirAt ["config"]).putAt ["config", "index.js"] (.bytes [0xFF])

/-- The migration of that tree fails, and not fatally. -/
theorem migrate_failure_not_fatal :
    ∃ fault, Project.load .standard garbledDisk = .error fault ∧
      migrate .standard 1 garbledDisk = (.error fault, garbledDisk) ∧
      fault.severity ≠ .fatal :=
  ⟨Obstacle.notText.fault ⟨"./config/index.js"⟩, rfl, rfl, by decide⟩

/-- Without a build configuration the fault is fatal and all files are text; with a garbled one
there is a file that is none. A pool that does not start is fatal where the project loads. -/
theorem migrate_failure_both_ways :
    (Project.load .standard (Disk.bare []) = .error (.configNotFound ⟨"."⟩) ∧
      ¬ ∃ path, Project.Reads .standard (Disk.bare []) path ∧ (Disk.bare []).Garbled path) ∧
    (Project.Reads .standard garbledDisk ⟨"./config/index.js"⟩ ∧
      ∃ fault, migrate .standard 1 garbledDisk = (.error fault, garbledDisk) ∧
        fault.severity = .perFile) ∧
    ∃ fault, migrateWith .standard 1 (some "no threads") configuredDisk =
        (.error fault, configuredDisk) ∧
      fault = .workerPool "no threads" ∧ fault.severity = .fatal ∧
      ¬ ∃ path, Project.Reads .standard configuredDisk path ∧ configuredDisk.Garbled path := by
  have hbare : Project.load .standard (Disk.bare []) = .error (.configNotFound ⟨"."⟩) := rfl
  have hreads : Project.Reads .standard garbledDisk ⟨"./config/index.js"⟩ := .buildConfig rfl
  have hgarbled : garbledDisk.Garbled ⟨"./config/index.js"⟩ := ⟨[0xFF], rfl⟩
  have hloads : (Project.load .standard configuredDisk).toOption.isSome = true := by
    rw [configuredDisk, projectDisk, String.toList_ofList, String.toList_ofList]
    decide +kernel
  obtain ⟨-, hfatal, -⟩ := migrate_failure .standard 1 none (Disk.bare [])
  obtain ⟨-, -, hperFile⟩ := migrate_failure .standard 1 none garbledDisk
  obtain ⟨hrefused, -, -⟩ := migrate_failure .standard 1 (some "no threads") configuredDisk
  refine ⟨⟨hbare, (hfatal _ hbare).mp rfl⟩, ⟨hreads, hperFile _ hreads hgarbled⟩, ?_⟩
  cases hload : Project.load .standard configuredDisk with
  | error fault =>
    rw [hload] at hloads
    cases hloads
  | ok plan =>
    have hrun : migrateWith .standard 1 (some "no threads") configuredDisk =
        (.error (.workerPool "no threads"), configuredDisk) := by
      unfold migrateWith
      rw [hload]
    obtain ⟨-, -, hiff⟩ := hrefused _ _ hrun
    exact ⟨_, hrun, rfl, rfl, hiff.mp rfl⟩

end Codemod
