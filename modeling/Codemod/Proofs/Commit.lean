import Codemod.Commit
import Codemod.Proofs.Disk.Place

/-!
# Codemod.Proofs.Commit

Committing the writes of one script.

All that is ever written for a script is what a `Wish` asks for. Where the script has its place, the
place beside it decides how that goes: if it is taken, nothing happens at all, and otherwise
everything does (`commit_writes`). A dry run asks the same question (`checkTargets_writes`), but may
be asking another disk.
-/

namespace Codemod

namespace Wish

def nothing : Wish :=
  ⟨none, none⟩

/-- The writes of a script: a new configuration module beside it, and a new text. -/
def writes (wish : Wish) (path : Path) : List PendingWrite :=
  (wish.moved.map (PendingWrite.create path.configModule)).toList ++
    (wish.rewritten.map (PendingWrite.overwrite path)).toList

/-- The new files among them. -/
def artifacts (wish : Wish) (path : Path) : List Path :=
  (wish.moved.map fun _ => path.configModule).toList

/-- The wish that writes are made for. -/
def ofWrites (writes : List PendingWrite) : Wish where
  moved := (writes.find? (·.createOnly)).map (·.contents)
  rewritten := (writes.find? fun w => !w.createOnly).map (·.contents)

theorem ofWrites_writes (wish : Wish) (path : Path) : ofWrites (wish.writes path) = wish := by
  obtain ⟨moved, rewritten⟩ := wish
  cases moved <;> cases rewritten <;> rfl

theorem writes_eq_nil_iff {wish : Wish} {path : Path} :
    wish.writes path = [] ↔ wish = nothing := by
  obtain ⟨moved, rewritten⟩ := wish
  cases moved <;> cases rewritten <;> simp [writes, nothing]

theorem commitOrder_writes (wish : Wish) (path : Path) :
    commitOrder (wish.writes path) = wish.writes path := by
  obtain ⟨moved, rewritten⟩ := wish
  cases moved <;> cases rewritten <;>
    simp [commitOrder, writes, PendingWrite.create, PendingWrite.overwrite]

theorem mem_artifacts {wish : Wish} {path other : Path} :
    other ∈ wish.artifacts path ↔ wish.moved.isSome = true ∧ other = path.configModule := by
  rw [artifacts]
  cases wish.moved <;> simp

end Wish

/-- If a configuration moves, the place of its module is free. -/
def Disk.Accepts (disk : Disk) (path : Path) (wish : Wish) : Prop :=
  wish.moved.isSome = true → disk.isThere path.configModule = false

instance (disk : Disk) (path : Path) (wish : Wish) : Decidable (disk.Accepts path wish) :=
  inferInstanceAs (Decidable (_ → _))

/-- A group of writes that belong to a script. -/
structure OwnGroup (disk : Disk) (group : Path × List PendingWrite) : Prop where
  isScript : disk.IsScript group.1
  own : ∃ wish : Wish, group.2 = wish.writes group.1

variable {disk : Disk} {path : Path} {loc : Location} {wish : Wish}

/-- Where a script has its place, nothing but the place beside it decides. -/
theorem Disk.Sits.accepts_iff (hs : disk.Sits path loc) :
    disk.Accepts path wish ↔ (wish.moved.isSome = true →
      (disk.contentsAt? loc.configModule).isSome = false ∧
        disk.isDirAt loc.configModule = false) := by
  rw [Accepts, isThere_of_locate hs.beside, Bool.or_eq_false_iff]

theorem Disk.put_of_locate (hloc : disk.locate path = .ok loc) (hdir : disk.isDirAt loc = false)
    (contents : Contents) : disk.put path contents = .ok (disk.putAt loc contents) := by
  rw [put, hloc]
  simp [hdir]

theorem perform_overwrite (owner : Path) (hloc : disk.locate path = .ok loc)
    (hdir : disk.isDirAt loc = false) (text : Text) :
    (PendingWrite.overwrite path text).perform owner disk = .ok (disk.putAt loc (.text text)) := by
  rw [PendingWrite.perform, PendingWrite.overwrite]
  simp [Disk.put_of_locate hloc hdir]

theorem perform_create_of_isThere (owner : Path) (h : disk.isThere path = true) (text : Text) :
    (PendingWrite.create path text).perform owner disk = .error (.artifactExists owner path) := by
  rw [PendingWrite.perform, PendingWrite.create]
  simp [h]

theorem perform_create (owner : Path) (hloc : disk.locate path = .ok loc)
    (h : disk.isThere path = false) (text : Text) :
    (PendingWrite.create path text).perform owner disk = .ok (disk.putAt loc (.text text)) := by
  have hdir : disk.isDirAt loc = false := by
    rw [Disk.isThere_of_locate hloc, Bool.or_eq_false_iff] at h
    exact h.2
  rw [PendingWrite.perform, PendingWrite.create]
  simp [h, Disk.put_of_locate hloc hdir]

theorem performAll_overwrite (owner : Path) (rewritten : Option Text)
    (hloc : disk.locate path = .ok loc) (hdir : disk.isDirAt loc = false) :
    performAll owner (rewritten.map (PendingWrite.overwrite path)).toList disk =
      (.ok (), disk.grant loc ⟨none, rewritten⟩) := by
  cases rewritten with
  | none => rfl
  | some text => simp [performAll, perform_overwrite owner hloc hdir, Disk.grant]

theorem grant_some (disk : Disk) (loc : Location) (new : Text) (rewritten : Option Text) :
    (disk.putAt loc.configModule (.text new)).grant loc ⟨none, rewritten⟩ =
      disk.grant loc ⟨some new, rewritten⟩ := by
  cases rewritten <;> rfl

/-- A wish is granted as a whole, unless the place of the configuration module is taken; then
nothing is written. -/
theorem commit_writes (h : disk.Sits path loc) (wish : Wish) :
    commit path (wish.writes path) disk =
      if disk.Accepts path wish then (.ok (), disk.grant loc wish)
      else (.error (.artifactExists path path.configModule), disk) := by
  rw [commit, Wish.commitOrder_writes, Wish.writes]
  obtain ⟨moved, rewritten⟩ := wish
  cases moved with
  | none =>
    have haccepts : disk.Accepts path ⟨none, rewritten⟩ := by simp [Disk.Accepts]
    rw [if_pos haccepts]
    exact performAll_overwrite path rewritten h.located h.not_dir
  | some new =>
    simp only [Option.map_some, Option.toList_some, List.singleton_append, performAll]
    by_cases hthere : disk.isThere path.configModule = true
    · rw [perform_create_of_isThere path hthere, if_neg (by simp [Disk.Accepts, hthere])]
    · rw [Bool.not_eq_true] at hthere
      have hsits := h.of_sameDirs (.putAt disk loc.configModule (.text new))
      have haccepts : disk.Accepts path ⟨some new, rewritten⟩ := fun _ => hthere
      rw [perform_create path h.beside hthere, if_pos haccepts]
      simp only
      rw [performAll_overwrite path rewritten hsits.located hsits.not_dir, grant_some]

theorem checkTargets_writes (path : Path) (wish : Wish) (disk : Disk) :
    checkTargets path (wish.writes path) disk =
      if disk.Accepts path wish then .ok ()
      else .error (.artifactExists path path.configModule) := by
  obtain ⟨moved, rewritten⟩ := wish
  have hold : ((rewritten.map (PendingWrite.overwrite path)).toList.find? fun w =>
      w.createOnly && disk.isThere w.path) = none := by
    cases rewritten <;> simp [PendingWrite.overwrite]
  rw [checkTargets, Wish.writes, List.find?_append, hold]
  cases moved with
  | none => simp [Disk.Accepts]
  | some new =>
    by_cases hthere : disk.isThere path.configModule = true
    · simp [Disk.Accepts, PendingWrite.create, hthere]
    · simp [Disk.Accepts, PendingWrite.create, hthere]

end Codemod
