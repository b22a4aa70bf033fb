import Codemod.Proofs.Project.Pages
import Codemod.Proofs.Session.Chunks
import Codemod.Proofs.Session.DryRun
import Mathlib.Data.List.Forall2

/-!
# Codemod.Proofs.Session.Isolation

Two runs that begin with different texts of one file.

The difference may spread, but not far. It gets from a file to its configuration module, which the
one run adds and the other does not, and from there to the other files that would have the same
configuration module, since only the first of them gets it. There it ends: a `Stain` is the set of
places that it may get to. What a session does at the other places is the same in both runs, and
so is what it reports about them.

* `Disk.Twins`, `Session.Twins`: two disks, and two sessions, that differ at the stain only.
* `process_twins`, `processAll_twins`, `runPasses_twins`: they go on to do so, file after file and
  pass after pass.
* `Project.stainOf`: the stain that comes from a file. `Project.not_stainOf`: which files it does
  not get to.
* `run_isolated`: what becomes of those files, whatever the text of the one file is.
-/

namespace Codemod

/-- The places where two runs may differ. -/
structure Stain where
  /-- Where they may find something else. -/
  places : Location → Prop
  /-- Where the one may find something and the other nothing. -/
  added : Location → Prop
  places_of_added : ∀ loc, added loc → places loc

/-- A file that is clean does not look at the stain, and one that is stained spreads it no further:
its configuration module is stained, too, or was there from the beginning. -/
structure Stain.Holds (stain : Stain) (start : Disk) (loc : Location) : Prop where
  clean : ¬ stain.places loc → ¬ stain.added loc.configModule
  stained : stain.places loc → stain.added loc.configModule ∨
    (start.contentsAt? loc.configModule).isSome = true

/-- The files are there, and the stain does not spread from them. -/
def Stain.Contains (stain : Stain) (start : Disk) (files : List Path) : Prop :=
  ∀ path ∈ files, ∃ loc, start.Sits path loc ∧ (start.contentsAt? loc).isSome = true ∧
    stain.Holds start loc

/-- Two results for one file, the same if it is clean. -/
structure FileResult.Twins (stain : Stain) (start : Disk) (r r' : FileResult) : Prop where
  path : r'.path = r.path
  clean : ∃ loc, start.locate r.path = .ok loc ∧ (¬ stain.places loc → r' = r)

namespace Disk

variable {stain : Stain} {start disk disk' : Disk} {path : Path} {loc : Location} {wish : Wish}

/-- Two disks that have come from `start` and differ at the stain only. -/
structure Twins (stain : Stain) (start disk disk' : Disk) : Prop where
  grows : start.Grows disk
  grows' : start.Grows disk'
  contents : ∀ loc, ¬ stain.places loc → disk'.contentsAt? loc = disk.contentsAt? loc
  files : ∀ loc, ¬ stain.added loc →
    (disk'.contentsAt? loc).isSome = (disk.contentsAt? loc).isSome

namespace Twins

theorem symm (h : Twins stain start disk disk') : Twins stain start disk' disk where
  grows := h.grows'
  grows' := h.grows
  contents loc hloc := (h.contents loc hloc).symm
  files loc hloc := (h.files loc hloc).symm

theorem agreeOn (h : Twins stain start disk disk') :
    disk.AgreeOn (fun loc => ¬ stain.places loc) disk' :=
  ⟨h.grows.sameDirs.symm.trans h.grows'.sameDirs, h.contents⟩

theorem grant (h : Twins stain start disk disk') (hat : (start.contentsAt? loc).isSome = true)
    (wish : Wish) : Twins stain start (disk.grant loc wish) (disk'.grant loc wish) where
  grows := h.grows.trans (.grant (h.grows.files loc hat) wish)
  grows' := h.grows'.trans (.grant (h.grows'.files loc hat) wish)
  contents other hother := by
    rw [contentsAt?_grant, contentsAt?_grant, h.contents other hother]
  files other hother := by
    rw [contentsAt?_grant, contentsAt?_grant]
    split
    · rfl
    · split
      · rfl
      · exact h.files other hother

/-- What is granted at the stain to one of the two does not matter. -/
theorem grant_left (h : Twins stain start disk disk') (hat : (start.contentsAt? loc).isSome = true)
    (hloc : stain.places loc) (hmoved : wish.moved.isSome = true → stain.added loc.configModule) :
    Twins stain start (disk.grant loc wish) disk' where
  grows := h.grows.trans (.grant (h.grows.files loc hat) wish)
  grows' := h.grows'
  contents other hother := by
    rw [h.contents other hother, contentsAt?_grant, if_neg, if_neg]
    · rintro ⟨hm, rfl⟩
      exact hother (stain.places_of_added _ (hmoved hm))
    · rintro ⟨-, rfl⟩
      exact hother hloc
  files other hother := by
    rw [h.files other hother, Bool.eq_iff_iff,
      isSome_contentsAt?_grant disk loc other wish (h.grows.files loc hat)]
    constructor
    · exact .inl
    · rintro (hthere | ⟨hm, rfl⟩)
      · exact hthere
      · exact absurd (hmoved hm) hother

theorem accepts_iff (h : Twins stain start disk disk') (hs : start.Sits path loc)
    (hloc : ¬ stain.added loc.configModule) (wish : Wish) :
    disk'.Accepts path wish ↔ disk.Accepts path wish := by
  rw [(hs.of_sameDirs h.grows.sameDirs).accepts_iff, (hs.of_sameDirs h.grows'.sameDirs).accepts_iff,
    h.files _ hloc, h.grows.sameDirs.isDirAt, h.grows'.sameDirs.isDirAt]

end Twins

end Disk

namespace WorkerView

variable {view view' : WorkerView} {stain : Stain} {start disk disk' : Disk} {path : Path}
  {loc : Location}

/-- The views of two sessions that differ at the stain only. -/
structure Twins (stain : Stain) (start : Disk) (view view' : WorkerView) : Prop where
  pass : view'.pass = view.pass
  entry : view'.entry = view.entry
  dryRun : view'.dryRun = view.dryRun
  overrides : ∀ path loc, start.locate path = .ok loc → ¬ stain.places loc →
    override? view'.overrides path = override? view.overrides path

theorem load_twins (hview : Twins stain start view view') (h : Disk.Twins stain start disk disk')
    (hs : start.Sits path loc) (hloc : ¬ stain.places loc) :
    view'.load disk' path = view.load disk path := by
  have hload : ∀ (v : WorkerView) (d : Disk), v.load d path = readOver v.overrides d path :=
    fun _ _ => rfl
  have hread := h.agreeOn.read (h.grows.sameDirs.locate hs.located) hloc
  rw [hload, hload, readOver_eq, readOver_eq, hview.overrides path loc hs.located hloc, hread]

/-- A stained file is not written to elsewhere. -/
theorem settled_stained (view : WorkerView) (h : Disk.Twins stain start disk disk')
    (hs : start.Sits path loc) (hat : (start.contentsAt? loc).isSome = true)
    (hholds : stain.Holds start loc) (hloc : stain.places loc) :
    Disk.Twins stain start (view.settled disk path).2 disk' := by
  have hs' := hs.of_sameDirs h.grows.sameDirs
  rw [view.settled_eq hs']
  split
  · rename_i haccepts
    cases view.dryRun with
    | true => exact h
    | false =>
      refine h.grant_left hat hloc fun hmoved => ?_
      rcases hholds.stained hloc with hadded | hthere
      · exact hadded
      · -- the place was taken from the beginning
        have hfree := haccepts.contentsAt? hs' hmoved
        rw [h.grows.files _ hthere] at hfree
        cases hfree
  · exact h

theorem process_eq_result (hkeep : view.pass.KeepsToFile) (path : Path) (disk : Disk) :
    (view.process path .empty disk).1.results = [view.result disk path] ∧
      (view.process path .empty disk).2 = (view.settled disk path).2 := by
  rw [process_eq hkeep, add, results_note]
  exact ⟨rfl, rfl⟩

theorem path_result (view : WorkerView) (disk : Disk) (path : Path) :
    (view.result disk path).path = path :=
  path_answer _ _

/-- A file is processed in both runs, and if it is clean, with the same result. -/
theorem process_twins (hview : Twins stain start view view')
    (h : Disk.Twins stain start disk disk') (hs : start.Sits path loc)
    (hat : (start.contentsAt? loc).isSome = true) (hholds : stain.Holds start loc) :
    Disk.Twins stain start (view.settled disk path).2 (view'.settled disk' path).2 ∧
      (¬ stain.places loc → view'.result disk' path = view.result disk path) := by
  by_cases hloc : stain.places loc
  · refine ⟨?_, fun hclean => absurd hloc hclean⟩
    have hleft := view.settled_stained h hs hat hholds hloc
    exact (view'.settled_stained hleft.symm hs hat hholds hloc).symm
  · have hload := load_twins hview h hs hloc
    have hwish : view'.wish disk' path = view.wish disk path := by
      rw [wish, wish, hload, hview.pass, hview.entry]
    have haccepts := h.accepts_iff hs (hholds.clean hloc) (view.wish disk path)
    have hsettled := view.settled_eq (hs.of_sameDirs h.grows.sameDirs)
    have hsettled' := view'.settled_eq (hs.of_sameDirs h.grows'.sameDirs)
    rw [hwish, hview.dryRun] at hsettled'
    have hwent : (view'.settled disk' path).1 = (view.settled disk path).1 := by
      rw [hsettled, hsettled']
      by_cases hok : disk.Accepts path (view.wish disk path)
      · rw [if_pos hok, if_pos (haccepts.mpr hok)]
      · rw [if_neg hok, if_neg (mt haccepts.mp hok)]
    refine ⟨?_, fun _ => ?_⟩
    · rw [hsettled, hsettled']
      by_cases hok : disk.Accepts path (view.wish disk path)
      · rw [if_pos hok, if_pos (haccepts.mpr hok)]
        cases view.dryRun with
        | true => exact h
        | false => exact h.grant hat _
      · rw [if_neg hok, if_neg (mt haccepts.mp hok)]
        exact h
    · rw [result, result, hload, hwent]
      unfold answer
      rw [hview.pass, hview.entry]

theorem processAll_twins (hkeep : view.pass.KeepsToFile) (hview : Twins stain start view view')
    (h : Disk.Twins stain start disk disk') {files : List Path}
    (hfiles : stain.Contains start files) :
    Disk.Twins stain start (view.processAll files .empty disk).2
        (view'.processAll files .empty disk').2 ∧
      List.Forall₂ (FileResult.Twins stain start) (view.processAll files .empty disk).1.results
        (view'.processAll files .empty disk').1.results := by
  have hkeep' : view'.pass.KeepsToFile := hview.pass ▸ hkeep
  induction files generalizing disk disk' with
  | nil => exact ⟨h, .nil⟩
  | cons path files ih =>
    obtain ⟨loc, hs, hat, hholds⟩ := hfiles path List.mem_cons_self
    obtain ⟨hresult, hdisk⟩ := process_eq_result hkeep path disk
    obtain ⟨hresult', hdisk'⟩ := process_eq_result hkeep' path disk'
    obtain ⟨hsettled, hclean⟩ := process_twins hview h hs hat hholds
    rw [← hdisk, ← hdisk'] at hsettled
    obtain ⟨hrest, hresults⟩ := ih hsettled fun p hp => hfiles p (List.mem_cons_of_mem path hp)
    rw [processAll_cons, processAll_cons, processAll_append,
      view'.processAll_append files (view'.process path .empty disk').1]
    refine ⟨hrest, ?_⟩
    simp only [WorkerReport.append, hresult, hresult', List.singleton_append]
    refine .cons ⟨?_, loc, ?_, hclean⟩ hresults
    · rw [path_result, path_result]
    · rw [path_result]
      exact hs.located

end WorkerView

namespace FileResult

theorem path_of_mem_skips {r : FileResult} {pass : String} {k : Skip} (h : k ∈ r.skips pass) :
    k.path = r.path := by
  unfold skips at h
  cases houtcome : r.outcome with
  | failed fault =>
    simp only [houtcome, List.mem_singleton] at h
    rw [h]
    rfl
  | unchanged => simp [houtcome] at h
  | changed contents artifacts => simp [houtcome] at h

theorem path_of_mem_noticed {r : FileResult} {pass : String} {n : Notice}
    (h : n ∈ r.noticed pass) : n.path = r.path := by
  obtain ⟨m, -, rfl⟩ := List.mem_map.mp h
  rfl

/-- What is taken down of two results for one file is the same at all clean places. -/
theorem Twins.filter_eq {stain : Stain} {start : Disk} {r r' : FileResult} {α : Type}
    {path : α → Path} (hr : Twins stain start r r') (items : FileResult → List α)
    (hitems : ∀ {q : FileResult} {x : α}, x ∈ items q → path x = q.path)
    {other : Location} (hother : ¬ stain.places other) :
    ((items r').filter fun x => start.locate (path x) = .ok other) =
      (items r).filter fun x => start.locate (path x) = .ok other := by
  obtain ⟨hpath, loc, hloc, hclean⟩ := hr
  by_cases heq : loc = other
  · subst heq
    rw [hclean hother]
  · have hnone : ∀ q : FileResult, q.path = r.path →
        ((items q).filter fun x => start.locate (path x) = .ok other) = [] := by
      intro q hq
      rw [List.filter_eq_nil_iff]
      intro x hx
      rw [hitems hx, hq, hloc]
      simpa using heq
    rw [hnone r rfl, hnone r' hpath]

end FileResult

theorem override?_override (overrides : List (Path × Text)) (r : FileResult) (path : Path) :
    override? (r.override overrides) path =
      match r.outcome with
      | .changed contents _ => if r.path.same path then some contents else override? overrides path
      | .unchanged | .failed _ => override? overrides path := by
  unfold FileResult.override
  cases houtcome : r.outcome with
  | changed contents artifacts => exact override?_overlay overrides r.path path contents
  | unchanged => rfl
  | failed fault => rfl

namespace Session

variable {stain : Stain} {start disk disk' : Disk} {s s' : Session}

/-- Two sessions that differ at the stain only. -/
structure Twins (stain : Stain) (start : Disk) (s s' : Session) : Prop where
  passes : s'.passes = s.passes
  dryRun : s'.dryRun = s.dryRun
  overrides : ∀ path loc, start.locate path = .ok loc → ¬ stain.places loc →
    override? s'.overrides path = override? s.overrides path
  skipped : ∀ loc, ¬ stain.places loc →
    (s'.skipped.filter fun k => start.locate k.path = .ok loc) =
      s.skipped.filter fun k => start.locate k.path = .ok loc
  notices : ∀ loc, ¬ stain.places loc →
    (s'.notices.filter fun k => start.locate k.path = .ok loc) =
      s.notices.filter fun k => start.locate k.path = .ok loc

namespace Twins

theorem refl (stain : Stain) (start : Disk) (s : Session) : Twins stain start s s where
  passes := rfl
  dryRun := rfl
  overrides _ _ _ _ := rfl
  skipped _ _ := rfl
  notices _ _ := rfl

theorem view (h : Twins stain start s s') (pass : Pass) (entry : Path) :
    WorkerView.Twins stain start (s.view pass entry) (s'.view pass entry) :=
  ⟨rfl, rfl, h.dryRun, h.overrides⟩

theorem mergeResult (h : Twins stain start s s') (pass : String) {r r' : FileResult}
    (hr : FileResult.Twins stain start r r') :
    Twins stain start (Session.mergeResult pass s r) (Session.mergeResult pass s' r') := by
  obtain ⟨loc, hloc, hclean⟩ := hr.clean
  rw [mergeResult_eq, mergeResult_eq]
  refine ⟨h.passes, h.dryRun, ?_, ?_, ?_⟩
  · intro path other hother hplace
    have hold := h.overrides path other hother hplace
    simp only [h.dryRun]
    cases s.dryRun with
    | false => exact hold
    | true =>
      rw [if_pos rfl, if_pos rfl, override?_override, override?_override, hold, hr.path]
      by_cases hsame : r.path.same path = true
      · -- the path leads to the file, which is clean, then
        cases Disk.locate_of_same hsame hloc hother
        rw [hclean hplace]
      · cases r.outcome <;> cases r'.outcome <;> simp [hsame]
  · intro other hplace
    have hskips := hr.filter_eq (·.skips pass) FileResult.path_of_mem_skips hplace
    rw [List.filter_append, List.filter_append, h.skipped other hplace, hskips]
  · intro other hplace
    have hnoticed := hr.filter_eq (·.noticed pass) FileResult.path_of_mem_noticed hplace
    rw [List.filter_append, List.filter_append, h.notices other hplace, hnoticed]

theorem mergeResults (h : Twins stain start s s') (pass : String)
    {results results' : List FileResult}
    (hresults : List.Forall₂ (FileResult.Twins stain start) results results') :
    Twins stain start (results.foldl (Session.mergeResult pass) s)
      (results'.foldl (Session.mergeResult pass) s') := by
  induction hresults generalizing s s' with
  | nil => exact h
  | cons hr _ ih => exact ih (h.mergeResult pass hr)

end Twins

theorem runPass_twins (h : Twins stain start s s') (hdisk : Disk.Twins stain start disk disk')
    {pass : Pass} (hkeep : pass.KeepsToFile) (entry : Path) {files : List Path}
    (hfiles : stain.Contains start files) :
    Twins stain start (s.runPass pass entry files disk).1 (s'.runPass pass entry files disk').1 ∧
      Disk.Twins stain start (s.runPass pass entry files disk).2
        (s'.runPass pass entry files disk').2 := by
  have hkeep' : (s.view pass entry).pass.KeepsToFile := hkeep
  obtain ⟨hprocessed, hresults⟩ :=
    WorkerView.processAll_twins hkeep' (h.view pass entry) hdisk hfiles
  rw [runPass_eq, runPass_eq, mergeReport_eq, mergeReport_eq]
  obtain ⟨hpasses, hdry, hoverrides, hskipped, hnotices⟩ := h.mergeResults pass.name hresults
  -- what is taken down of features is another matter
  exact ⟨⟨hpasses, hdry, hoverrides, hskipped, hnotices⟩, hprocessed⟩

theorem runPasses_twins (h : Twins stain start s s') (hdisk : Disk.Twins stain start disk disk')
    (entry : Path) {tree pages : List Path} {passes : List Pass}
    (hkeep : ∀ pass ∈ passes, pass.KeepsToFile) (htree : stain.Contains start tree)
    (hpages : stain.Contains start pages) :
    Twins stain start (s.runPasses entry tree pages passes disk).1
        (s'.runPasses entry tree pages passes disk').1 ∧
      Disk.Twins stain start (s.runPasses entry tree pages passes disk).2
        (s'.runPasses entry tree pages passes disk').2 := by
  induction passes generalizing s s' disk disk' with
  | nil => exact ⟨h, hdisk⟩
  | cons pass passes ih =>
    have hfiles : stain.Contains start (filesFor pass tree pages) := by
      rw [filesFor]
      split
      · exact htree
      · exact hpages
    obtain ⟨hnext, hdisk'⟩ := runPass_twins h hdisk (hkeep pass List.mem_cons_self) entry hfiles
    exact ih hnext hdisk' fun p hp => hkeep p (List.mem_cons_of_mem pass hp)

end Session

namespace Project

variable {project : Project} {disk disk' : Disk} {place loc : Location}

/-- A run comes to the place. -/
def Reaches (project : Project) (disk : Disk) (loc : Location) : Prop :=
  ∃ path, project.ComesTo disk path ∧ disk.locate path = .ok loc

/-- How far another text of the file at a place may make itself felt. If a run comes to the file and
may give it a configuration module, that is the module and all files that would share it. -/
def stainOf (project : Project) (disk : Disk) (place : Location) : Stain where
  places loc := loc = place ∨
    project.Reaches disk place ∧ (disk.contentsAt? place.configModule).isSome = false ∧
      (loc = place.configModule ∨
        project.Reaches disk loc ∧ loc.configModule = place.configModule)
  added loc := project.Reaches disk place ∧
    (disk.contentsAt? place.configModule).isSome = false ∧ loc = place.configModule
  places_of_added := fun _ ⟨hreaches, hfree, hloc⟩ => .inr ⟨hreaches, hfree, .inl hloc⟩

theorem stainOf_holds (hat : (disk.contentsAt? loc).isSome = true)
    (hreaches : project.Reaches disk loc) (place : Location) :
    (project.stainOf disk place).Holds disk loc where
  clean := by
    rintro hclean ⟨hplace, hfree, hshared⟩
    exact hclean (.inr ⟨hplace, hfree, .inr ⟨hreaches, hshared⟩⟩)
  stained := by
    rintro (rfl | ⟨hplace, hfree, rfl | ⟨-, hshared⟩⟩)
    · cases hfree : (disk.contentsAt? loc.configModule).isSome with
      | true => exact .inr rfl
      | false => exact .inl ⟨hreaches, hfree, rfl⟩
    · rw [hfree] at hat
      cases hat
    · exact .inl ⟨hplace, hfree, hshared⟩

theorem stainOf_contains (hwf : disk.WellFormed) (place : Location) {files : List Path}
    (hfiles : ∀ path ∈ files, project.ComesTo disk path) :
    (project.stainOf disk place).Contains disk files := by
  intro path hpath
  obtain ⟨loc, hs, hat⟩ := ((hfiles path hpath).isScript hwf).sits hwf
  exact ⟨loc, hs, hat, stainOf_holds hat ⟨path, hfiles path hpath, hs.located⟩ place⟩

/-- A file that has nothing to do with the one at `place` is clean, and so is its configuration
module. -/
theorem not_stainOf (hwf : disk.WellFormed) (hne : loc ≠ place)
    (hshared : loc.configModule ≠ place.configModule)
    (hmodule : loc ≠ place.configModule) (hmodule' : loc.configModule ≠ place) :
    ¬ (project.stainOf disk place).places loc ∧
      ¬ (project.stainOf disk place).places loc.configModule := by
  constructor
  · rintro (heq | ⟨-, -, heq | ⟨-, heq⟩⟩)
    · exact hne heq
    · exact hmodule heq
    · exact hshared heq
  · rintro (heq | ⟨⟨path, hpath, hloc⟩, -, heq | ⟨⟨path', hpath', hloc'⟩, heq⟩⟩)
    · exact hmodule' heq
    · exact hshared heq
    · -- two configuration modules that a run comes to share no configuration module
      exact hmodule' (eq_of_configModule_eq hwf hpath' hpath hloc' hloc heq)

end Project

namespace Session

variable {project : Project} {disk disk' : Disk} {place : Location}

theorem run_twins (s : Session) (hkeep : ∀ pass ∈ s.passes, pass.KeepsToFile)
    (hwf : disk.WellFormed) (hwf' : disk'.WellFormed) (hpaths : disk.SamePaths disk')
    (honly : ∀ loc, loc ≠ place → disk'.contentsAt? loc = disk.contentsAt? loc) :
    Twins (project.stainOf disk place) disk (s.run project disk).1 (s.run project disk').1 ∧
      Disk.Twins (project.stainOf disk place) disk (s.run project disk).2
        (s.run project disk').2 := by
  have hdisks : Disk.Twins (project.stainOf disk place) disk disk disk' := {
    grows := .refl disk
    grows' := ⟨hpaths.sameDirs, fun loc hloc => by rw [hpaths.files, hloc]⟩
    contents := fun loc hloc => honly loc fun heq => hloc (.inl heq)
    files := fun loc _ => hpaths.files loc }
  obtain ⟨hsession, hdisk⟩ := runPasses_twins (.refl _ disk s) hdisks project.entryFilePath hkeep
    (Project.stainOf_contains hwf place fun path hpath => .inl hpath)
    (Project.stainOf_contains hwf place fun path hpath => .inr hpath)
  obtain ⟨hpasses, hdry, hoverrides, hskipped, hnotices⟩ := hsession
  rw [run_eq, run_eq, SourceTree.sources_eq_of_samePaths hpaths hwf hwf',
    Project.pageFiles_eq_of_samePaths hpaths]
  exact ⟨⟨hpasses, hdry, hoverrides, hskipped, hnotices⟩, hdisk⟩

instance (disk : Disk) (path path' : Path) : Decidable (disk.SamePlace path path') :=
  match h : disk.locate path' with
  | .ok _ => decidable_of_iff _ (Disk.samePlace_iff h).symm
  | .error _ => isFalse fun ⟨_, _, hloc⟩ => by cases h.symm.trans hloc

/-- A page with a configuration. -/
def pageDisk : Disk :=
  let page := "export default class A \x7b config = \x7b a: 1 \x7d \x7d"
  ((Disk.bare []).makeDirAt ["src"]).putAt ["src", "a.js"] (.text page.toList)

end Session

end Codemod
