import Codemod.Proofs.Session.Journey
import Mathlib.Data.List.Find

/-!
# Codemod.Proofs.Commit.Stages

A commit that does not get to its end.

`stages` are the disks that a commit goes through, one for each write. Wherever it is broken off, or
fails, it leaves one of them behind.

* `exists_performed`: at every stage the first of the writes have been made, and no others.
* `contentsAt?_eq_or_wrote`: so every place is as it was, or has the text of one of them.
* `stages_safe`: new files are there, with all of their text, before any file is replaced; no other
  file is touched. Two paths may be names of one file (`stages_two_names`); then the second write
  there can undo the first (`Disk.Spaced`).
* `commit_refused_iff`: with one new file at most, a commit refuses what `checkTargets` refuses, and
  then it has written nothing.
-/

namespace Codemod

/-- The disks that a list of writes goes through, until one of them fails. -/
def stages (owner : Path) : List PendingWrite → Disk → List Disk
  | [], disk => [disk]
  | w :: ws, disk =>
    disk :: match w.perform owner disk with
      | .ok next => stages owner ws next
      | .error _ => []

variable {owner : Path} {w : PendingWrite} {writes ws done : List PendingWrite}
  {disk mid next : Disk} {loc : Location}

theorem getLast?_stages (owner : Path) (ws : List PendingWrite) (disk : Disk) :
    (stages owner ws disk).getLast? = some (performAll owner ws disk).2 := by
  induction ws generalizing disk with
  | nil => rfl
  | cons w ws ih =>
    cases hw : w.perform owner disk with
    | error fault => simp [stages, performAll, hw]
    | ok next => simp [stages, performAll, hw, List.getLast?_cons, ih next]

theorem performAll_cons_ok (h : performAll owner (w :: ws) disk = (.ok (), mid)) :
    ∃ next, w.perform owner disk = .ok next ∧ performAll owner ws next = (.ok (), mid) := by
  rw [performAll] at h
  cases hw : w.perform owner disk with
  | error fault =>
    rw [hw] at h
    cases h
  | ok next =>
    rw [hw] at h
    exact ⟨next, rfl, h⟩

theorem exists_performed (h : mid ∈ stages owner ws disk) :
    ∃ done rest, ws = done ++ rest ∧ performAll owner done disk = (.ok (), mid) := by
  induction ws generalizing disk with
  | nil =>
    rw [stages, List.mem_singleton] at h
    subst h
    exact ⟨[], [], rfl, rfl⟩
  | cons w ws ih =>
    rw [stages, List.mem_cons] at h
    rcases h with rfl | h
    · exact ⟨[], w :: ws, rfl, rfl⟩
    · cases hw : w.perform owner disk with
      | error fault => simp [hw] at h
      | ok next =>
        rw [hw] at h
        obtain ⟨done, rest, rfl, hdone⟩ := ih h
        refine ⟨w :: done, rest, rfl, ?_⟩
        rw [performAll, hw]
        exact hdone

/-- A write that succeeds puts its text where its path leads. If it makes a new file, nothing was
there. -/
theorem perform_eq_ok (h : w.perform owner disk = .ok next) :
    ∃ loc, disk.locate w.path = .ok loc ∧ next = disk.putAt loc (.text w.contents) ∧
      (w.createOnly = true → disk.contentsAt? loc = none) := by
  rw [PendingWrite.perform] at h
  split at h
  · cases h
  · rename_i hfree
    rw [Disk.put] at h
    cases hloc : disk.locate w.path with
    | error obstacle =>
      rw [hloc] at h
      cases h
    | ok loc =>
      simp only [hloc] at h
      split at h
      · cases h
      · cases h
        refine ⟨loc, rfl, rfl, fun hnew => ?_⟩
        rw [hnew, Bool.true_and, Bool.not_eq_true, Disk.isThere_of_locate hloc,
          Bool.or_eq_false_iff] at hfree
        simpa using hfree.1

theorem sameDirs_perform (h : w.perform owner disk = .ok next) : disk.SameDirs next := by
  obtain ⟨loc, -, rfl, -⟩ := perform_eq_ok h
  exact .putAt disk loc _

theorem sameDirs_performAll (h : performAll owner done disk = (.ok (), mid)) :
    disk.SameDirs mid := by
  induction done generalizing disk with
  | nil =>
    cases h
    exact .refl mid
  | cons w done ih =>
    obtain ⟨next, hw, hrest⟩ := performAll_cons_ok h
    exact (sameDirs_perform hw).trans (ih hrest)

/-- Where none of the writes leads, nothing changes. -/
theorem contentsAt?_performAll (h : performAll owner done disk = (.ok (), mid))
    (hother : ∀ w ∈ done, disk.locate w.path ≠ .ok loc) :
    mid.contentsAt? loc = disk.contentsAt? loc := by
  induction done generalizing disk with
  | nil =>
    cases h
    rfl
  | cons w done ih =>
    obtain ⟨next, hw, hrest⟩ := performAll_cons_ok h
    have hsame := sameDirs_perform hw
    have hthen : ∀ w ∈ done, next.locate w.path ≠ .ok loc := fun v hv hloc =>
      hother v (List.mem_cons_of_mem w hv) (hsame.symm.locate hloc)
    rw [ih hrest hthen]
    obtain ⟨place, hplace, rfl, -⟩ := perform_eq_ok hw
    have hne : place ≠ loc := by
      rintro rfl
      exact hother w List.mem_cons_self hplace
    rw [Disk.contentsAt?_putAt, if_neg hne]

/-- What has become of a write that was made. -/
structure Disk.Wrote (disk mid : Disk) (w : PendingWrite) (loc : Location) : Prop where
  located : disk.locate w.path = .ok loc
  written : mid.contentsAt? loc = some (.text w.contents)
  /-- A new file was made where there was none. -/
  fresh : w.createOnly = true → disk.contentsAt? loc = none

/-- Where a new file was made there was none. -/
theorem contentsAt?_of_created (h : performAll owner done disk = (.ok (), mid)) (hw : w ∈ done)
    (hnew : w.createOnly = true) (hloc : disk.locate w.path = .ok loc) :
    disk.contentsAt? loc = none := by
  induction done generalizing disk with
  | nil => cases hw
  | cons first done ih =>
    obtain ⟨next, hfirst, hrest⟩ := performAll_cons_ok h
    obtain ⟨place, hplace, hnext, hfresh⟩ := perform_eq_ok hfirst
    rcases List.mem_cons.mp hw with rfl | hw
    · rw [hplace] at hloc
      cases hloc
      exact hfresh hnew
    · -- nothing is there later, so nothing was there before the first write either
      have hnone := ih hrest hw ((sameDirs_perform hfirst).locate hloc)
      rw [hnext, Disk.contentsAt?_putAt] at hnone
      split at hnone
      · cases hnone
      · exact hnone

/-- Every place is as it was, or has the text of a write that was made there. -/
theorem contentsAt?_eq_or_wrote (h : performAll owner done disk = (.ok (), mid)) (loc : Location) :
    mid.contentsAt? loc = disk.contentsAt? loc ∨ ∃ w ∈ done, disk.Wrote mid w loc := by
  induction done generalizing disk with
  | nil =>
    cases h
    exact .inl rfl
  | cons first done ih =>
    obtain ⟨next, hfirst, hrest⟩ := performAll_cons_ok h
    have hsame := sameDirs_perform hfirst
    obtain ⟨place, hplace, hnext, hfresh⟩ := perform_eq_ok hfirst
    rcases ih hrest with hkept | ⟨w, hw, hwrote⟩
    · rw [hnext, Disk.contentsAt?_putAt] at hkept
      split at hkept
      · rename_i heq
        subst heq
        exact .inr ⟨first, List.mem_cons_self, hplace, hkept, hfresh⟩
      · exact .inl hkept
    · have hloc := hsame.symm.locate hwrote.located
      exact .inr ⟨w, List.mem_cons_of_mem first hw, hloc, hwrote.written,
        fun hnew => contentsAt?_of_created h (List.mem_cons_of_mem first hw) hnew hloc⟩

/-- A write that was made is still to be seen, unless a file was replaced at its place. -/
theorem wrote_of_mem (h : performAll owner done disk = (.ok (), mid)) (hw : w ∈ done)
    (hapart : ∀ v ∈ done, v.createOnly = false → ¬ disk.SamePlace w.path v.path) :
    ∃ loc, disk.Wrote mid w loc := by
  induction done generalizing disk with
  | nil => cases hw
  | cons first done ih =>
    obtain ⟨next, hfirst, hrest⟩ := performAll_cons_ok h
    have hsame := sameDirs_perform hfirst
    obtain ⟨place, hplace, hnext, hfresh⟩ := perform_eq_ok hfirst
    rcases List.mem_cons.mp hw with rfl | hw
    · have hthere : next.contentsAt? place = some (.text w.contents) := by
        rw [hnext, Disk.contentsAt?_putAt, if_pos rfl]
      refine ⟨place, hplace, ?_, hfresh⟩
      rw [← hthere]
      refine contentsAt?_performAll hrest fun v hv hloc => ?_
      have hlocBefore := hsame.symm.locate hloc
      cases hkind : v.createOnly with
      | false =>
        exact hapart v (List.mem_cons_of_mem w hv) hkind ⟨place, hplace, hlocBefore⟩
      | true =>
        -- another new file there would have been refused
        rw [contentsAt?_of_created hrest hv hkind hloc] at hthere
        cases hthere
    · obtain ⟨loc, hwrote⟩ := ih hrest hw fun v hv hold hplaces => by
        obtain ⟨loc, hloc, hloc'⟩ := hplaces
        exact hapart v (List.mem_cons_of_mem first hv) hold
          ⟨loc, hsame.symm.locate hloc, hsame.symm.locate hloc'⟩
      have hloc := hsame.symm.locate hwrote.located
      exact ⟨loc, hloc, hwrote.written,
        fun hnew => contentsAt?_of_created h (List.mem_cons_of_mem first hw) hnew hloc⟩

theorem perm_commitOrder (writes : List PendingWrite) : (commitOrder writes).Perm writes :=
  List.filter_append_perm _ writes

theorem mem_commitOrder : w ∈ commitOrder writes ↔ w ∈ writes :=
  (perm_commitOrder writes).mem_iff

/-- Once a file is replaced, all new files have been made. -/
theorem mem_performed_of_createOnly {rest : List PendingWrite} {c : PendingWrite}
    (horder : commitOrder writes = done ++ rest) (hw : w ∈ done) (hold : w.createOnly = false)
    (hc : c ∈ writes) (hnew : c.createOnly = true) : c ∈ done := by
  have hmem : c ∈ writes.filter (·.createOnly) := List.mem_filter.mpr ⟨hc, hnew⟩
  rw [commitOrder] at horder
  rcases List.append_eq_append_iff.mp horder with ⟨more, rfl, -⟩ | ⟨more, hnews, -⟩
  · exact List.mem_append_left more hmem
  · -- otherwise the writes so far would all be new files
    have hw' : w ∈ writes.filter (·.createOnly) := hnews ▸ List.mem_append_left more hw
    rw [(List.mem_filter.mp hw').2] at hold
    cases hold

theorem Disk.Wrote.contents? (hsame : disk.SameDirs mid) (h : disk.Wrote mid w loc) :
    mid.contents? w.path = some (.text w.contents) :=
  Disk.contents?_eq_some_iff.mpr ⟨loc, hsame.locate h.located, h.written⟩

theorem Disk.SameDirs.contents?_eq {path : Path} (hsame : disk.SameDirs mid)
    (h : ∀ loc, disk.locate path = .ok loc → mid.contentsAt? loc = disk.contentsAt? loc) :
    mid.contents? path = disk.contents? path := by
  apply Option.ext
  intro contents
  rw [Disk.contents?_eq_some_iff, Disk.contents?_eq_some_iff]
  constructor
  · rintro ⟨loc, hloc, hat⟩
    have hback := hsame.symm.locate hloc
    exact ⟨loc, hback, h loc hback ▸ hat⟩
  · rintro ⟨loc, hloc, hat⟩
    exact ⟨loc, hsame.locate hloc, (h loc hloc).trans hat⟩

/-- A path whose file has changed leads to where something was written. -/
theorem exists_wrote_of_ne {path : Path} (hdone : performAll owner done disk = (.ok (), mid))
    (hchanged : mid.contents? path ≠ disk.contents? path) :
    ∃ w ∈ done, ∃ loc, disk.locate path = .ok loc ∧ disk.Wrote mid w loc := by
  by_contra hnone
  refine hchanged ((sameDirs_performAll hdone).contents?_eq fun loc hloc => ?_)
  rcases contentsAt?_eq_or_wrote hdone loc with hkept | ⟨w, hw, hwrote⟩
  · exact hkept
  · exact absurd ⟨w, hw, loc, hloc, hwrote⟩ hnone

/-- A file that is replaced at the place of a new one, by another path, was there before. So the new
one is refused, and not lost. -/
def Disk.Spaced (disk : Disk) (writes : List PendingWrite) : Prop :=
  ∀ c ∈ writes, c.createOnly = true → ∀ w ∈ writes, w.createOnly = false →
    disk.SamePlace c.path w.path → disk.isFile w.path = true

/-- A new file that was made is not at the place of one that is replaced. -/
theorem Disk.Spaced.apart (hspaced : disk.Spaced writes) {c : PendingWrite}
    (hdone : performAll owner done disk = (.ok (), mid)) (hc : c ∈ done) (hmem : c ∈ writes)
    (hnew : c.createOnly = true) (hw : w ∈ writes) (hold : w.createOnly = false) :
    ¬ disk.SamePlace c.path w.path := by
  intro hplaces
  have hfile := hspaced c hmem hnew w hw hold hplaces
  obtain ⟨loc, hloc, hloc'⟩ := hplaces
  obtain ⟨place, hplace, hat⟩ := Disk.isFile_iff.mp hfile
  rw [hplace] at hloc'
  cases hloc'
  rw [contentsAt?_of_created hdone hc hnew hloc] at hat
  cases hat

/-- Once the file of a replacement has changed, all new files are there. -/
theorem Disk.Spaced.created (hspaced : disk.Spaced writes) {rest : List PendingWrite}
    (horder : commitOrder writes = done ++ rest)
    (hdone : performAll owner done disk = (.ok (), mid)) (hw : w ∈ writes)
    (hold : w.createOnly = false) (hchanged : mid.contents? w.path ≠ disk.contents? w.path)
    {c : PendingWrite} (hc : c ∈ writes) (hnew : c.createOnly = true) :
    mid.contents? c.path = some (.text c.contents) := by
  have hmem : ∀ v ∈ done, v ∈ writes := fun v hv =>
    mem_commitOrder.mp (horder ▸ List.mem_append_left rest hv)
  obtain ⟨v, hv, loc, hloc, hwrote⟩ := exists_wrote_of_ne hdone hchanged
  -- what was written there is a replacement, so all new files had been made
  have hkind : v.createOnly = false := by
    cases hkind : v.createOnly with
    | false => rfl
    | true =>
      exact absurd ⟨loc, hwrote.located, hloc⟩ (hspaced.apart hdone hv (hmem v hv) hkind hw hold)
  have hmade := mem_performed_of_createOnly horder hv hkind hc hnew
  obtain ⟨place, hmadeAt⟩ := wrote_of_mem hdone hmade fun u hu hu' =>
    hspaced.apart hdone hmade hc hnew (hmem u hu) hu'
  exact hmadeAt.contents? (sameDirs_performAll hdone)

/-- The file that a configuration moves out of is there. -/
theorem Disk.spaced_of_moved {module text : Text} (hfile : disk.isFile owner = true)
    (hwrites : writes.Perm (Wish.writes ⟨some module, some text⟩ owner)) :
    disk.Spaced writes := by
  intro c hc hcreate w hw hkind hplaces
  have hpath : w.path = owner := by
    rcases List.mem_cons.mp (hwrites.mem_iff.mp hw) with rfl | hw
    · cases hkind
    · rw [List.mem_singleton.mp hw]
      rfl
  rwa [hpath]

/-- Whatever moment a commit is broken off at: a file that is to be replaced is as it was, unless
all new files are there; no other file that was there has changed; and every file is as it was or
has its new text. The first of these fails where the path of a replaced file is another name of a
new one (`stages_two_names`), the others hold for all paths. What is moved out of a file is in the
file or in the new module. The last of the disks is the one that the commit leaves. -/
theorem stages_safe (owner : Path) (writes : List PendingWrite) (disk : Disk) :
    (stages owner (commitOrder writes) disk).getLast? = some (commit owner writes disk).2 ∧
    ∀ mid ∈ stages owner (commitOrder writes) disk,
      (disk.Spaced writes → ∀ w ∈ writes, w.createOnly = false →
        mid.contents? w.path ≠ disk.contents? w.path →
        ∀ c ∈ writes, c.createOnly = true → mid.contents? c.path = some (.text c.contents)) ∧
      (∀ loc, (disk.contentsAt? loc).isSome = true →
        (∀ w ∈ writes, w.createOnly = false → disk.locate w.path ≠ .ok loc) →
        mid.contentsAt? loc = disk.contentsAt? loc) ∧
      (∀ loc, mid.contentsAt? loc = disk.contentsAt? loc ∨
        ∃ w ∈ writes, disk.locate w.path = .ok loc ∧
          mid.contentsAt? loc = some (.text w.contents)) ∧
      ∀ module text, disk.isFile owner = true →
        writes.Perm (Wish.writes ⟨some module, some text⟩ owner) →
        mid.contents? owner = disk.contents? owner ∨
          mid.contents? owner.configModule = some (.text module) := by
  refine ⟨getLast?_stages owner (commitOrder writes) disk, fun mid hmid => ?_⟩
  obtain ⟨done, rest, horder, hdone⟩ := exists_performed hmid
  have hmem : ∀ w ∈ done, w ∈ writes := fun w hw =>
    mem_commitOrder.mp (horder ▸ List.mem_append_left rest hw)
  refine ⟨?_, ?_, ?_, ?_⟩
  · intro hspaced w hw hold hchanged c hc hnew
    exact hspaced.created horder hdone hw hold hchanged hc hnew
  · intro loc hthere hnone
    rcases contentsAt?_eq_or_wrote hdone loc with hkept | ⟨w, hw, hwrote⟩
    · exact hkept
    · cases hkind : w.createOnly with
      | false => exact absurd hwrote.located (hnone w (hmem w hw) hkind)
      | true =>
        rw [hwrote.fresh hkind] at hthere
        cases hthere
  · intro loc
    rcases contentsAt?_eq_or_wrote hdone loc with hkept | ⟨w, hw, hwrote⟩
    · exact .inl hkept
    · exact .inr ⟨w, hmem w hw, hwrote.located, hwrote.written⟩
  · intro module text hfile hwrites
    have hnew : PendingWrite.create owner.configModule module ∈ writes :=
      hwrites.mem_iff.mpr List.mem_cons_self
    have hold : PendingWrite.overwrite owner text ∈ writes :=
      hwrites.mem_iff.mpr (List.mem_cons_of_mem _ List.mem_cons_self)
    by_cases hchanged : mid.contents? owner = disk.contents? owner
    · exact .inl hchanged
    · have hspaced := Disk.spaced_of_moved hfile hwrites
      exact .inr (hspaced.created horder hdone hold rfl hchanged hnew rfl)

/-- The replacement is listed first; at none of the three stages is the text lost. -/
theorem stages_safe_replacement_first :
    let owner : Path := ⟨"app.js"⟩
    let disk := (Disk.bare []).putAt ["app.js"] (.text ['a'])
    let writes : List PendingWrite := [.overwrite owner ['b'], .create owner.configModule ['c']]
    (stages owner (commitOrder writes) disk).length = 3 ∧
      ∀ mid ∈ stages owner (commitOrder writes) disk,
        mid.contents? owner = some (.text ['a']) ∨
          mid.contents? owner.configModule = some (.text ['c']) := by
  intro owner disk writes
  refine ⟨by decide +kernel, fun mid hmid => ?_⟩
  have hold : disk.contents? owner = some (.text ['a']) := by decide +kernel
  have hfile : disk.isFile owner = true := by decide +kernel
  have hkept := ((stages_safe owner writes disk).2 mid hmid).2.2.2 ['c'] ['b'] hfile
    (List.Perm.swap _ _ [])
  rwa [hold] at hkept

/-- Two of the paths are names of one file that is not there yet. Before the last write the new file
is gone already, although a file to be replaced has changed. -/
theorem stages_two_names :
    let owner : Path := ⟨"b.js"⟩
    let disk := ((Disk.bare []).makeDirAt ["d"]).putAt ["b.js"] (.text ['b'])
    let writes : List PendingWrite :=
      [.create ⟨"a.js"⟩ ['x'], .overwrite ⟨"d/../a.js"⟩ ['y'], .overwrite owner ['z']]
    (writes.map (·.path)).Pairwise (fun p q => p.same q = false) ∧
      ∃ mid ∈ stages owner (commitOrder writes) disk, mid ≠ (commit owner writes disk).2 ∧
        mid.contents? ⟨"d/../a.js"⟩ ≠ disk.contents? ⟨"d/../a.js"⟩ ∧
        mid.contents? ⟨"a.js"⟩ ≠ some (.text ['x']) := by
  decide +kernel

theorem put_ne_artifactExists (disk : Disk) (path : Path) (contents : Contents) (o a : Path) :
    disk.put path contents ≠ .error (.artifactExists o a) := by
  rw [Disk.put]
  intro h
  split at h
  · cases h
  · split at h <;> cases h

theorem perform_ne_artifactExists (hold : w.createOnly = false) (o a : Path) :
    w.perform owner disk ≠ .error (.artifactExists o a) := by
  rw [PendingWrite.perform, hold, Bool.false_and, if_neg Bool.false_ne_true]
  exact put_ne_artifactExists disk w.path _ o a

/-- Replacements are never refused. -/
theorem performAll_ne_artifactExists (hold : ∀ w ∈ ws, w.createOnly = false) (disk : Disk)
    (o a : Path) : (performAll owner ws disk).1 ≠ .error (.artifactExists o a) := by
  induction ws generalizing disk with
  | nil => nofun
  | cons w ws ih =>
    rw [performAll]
    cases hw : w.perform owner disk with
    | ok next => exact ih (fun v hv => hold v (List.mem_cons_of_mem w hv)) next
    | error fault =>
      intro hfault
      cases hfault
      exact perform_ne_artifactExists (hold w List.mem_cons_self) o a hw

theorem checkTargets_eq (owner : Path) (writes : List PendingWrite) (disk : Disk) :
    checkTargets owner writes disk =
      match (writes.filter (·.createOnly)).find? fun w => disk.isThere w.path with
      | some w => .error (.artifactExists owner w.path)
      | none => .ok () := by
  have hfind : writes.find? (fun w => w.createOnly && disk.isThere w.path) =
      (writes.filter (·.createOnly)).find? fun w => disk.isThere w.path := by
    simp only [List.find?_filter, Bool.decide_and, Bool.decide_eq_true]
  exact hfind ▸ rfl

/-- With one new file at most, a commit is refused exactly when a look beforehand would have said
so, in the same words, and then nothing has been written. -/
theorem commit_refused_iff (owner : Path) (hone : (writes.filter (·.createOnly)).length ≤ 1)
    (disk : Disk) :
    (∀ o a, (commit owner writes disk).1 = .error (.artifactExists o a) ↔
      checkTargets owner writes disk = .error (.artifactExists o a)) ∧
    (checkTargets owner writes disk ≠ .ok () → (commit owner writes disk).2 = disk) := by
  have hold : ∀ w ∈ writes.filter fun w => !w.createOnly, w.createOnly = false := by
    intro w hw
    simpa using (List.mem_filter.mp hw).2
  rw [commit, commitOrder, checkTargets_eq]
  cases hnew : writes.filter (·.createOnly) with
  | nil => simpa using performAll_ne_artifactExists hold disk
  | cons c cs =>
    rw [hnew, List.length_cons] at hone
    have hnil : cs = [] := List.eq_nil_of_length_eq_zero (by omega)
    subst hnil
    have hcreate : c.createOnly = true := by
      have hc : c ∈ writes.filter (·.createOnly) := hnew ▸ List.mem_cons_self
      exact (List.mem_filter.mp hc).2
    rw [List.singleton_append, performAll, PendingWrite.perform, hcreate, Bool.true_and]
    cases hthere : disk.isThere c.path with
    | true => simp [hthere]
    | false =>
      simp only [Bool.false_eq_true, if_false, List.find?_cons, hthere, List.find?_nil]
      refine ⟨fun o a => ?_, fun h => absurd rfl h⟩
      cases hput : disk.put c.path (.text c.contents) with
      | ok next => simpa using performAll_ne_artifactExists hold next o a
      | error fault =>
        have hother : fault ≠ .artifactExists o a := by
          rintro rfl
          exact put_ne_artifactExists disk c.path _ o a hput
        simpa using hother

end Codemod
