import Codemod.Proofs.Session.Worker

/-!
# Codemod.Proofs.Session.Journey

What a run does to the disk, visit by visit.

A `Visit` goes to a file and asks for something, given its text. Nothing comes of it if it asks for
nothing, or if the place of the configuration module it asks for is taken (`Visit.Idle`). A
`Journey` makes visits in order, each on the disk that the ones before have left, and logs what was
written.

* `Journey.eq_of_idle`, `Journey.idle_of_log_nil`: a journey writes nothing exactly if all of its
  visits are idle where it begins.
* `Journey.idle_after`: once it is over, visits to files that it did not rewrite are idle.
* `Journey.scattered_artifacts`: no two of the new files are at the same place.
* `Journey.contentsAt?_manifest`: package manifests are left alone.
* `Journey.contentsAt?_of_not_writesAt`, `Journey.isSome_contentsAt?`: what the disk holds
  afterwards is what it held before, as far as the log does not say otherwise.
-/

namespace Codemod

structure Visit where
  path : Path
  /-- What is asked for, given the text of the file. -/
  wants : Except Fault Text → Wish

namespace Visit

/-- A pass looks at a file. -/
def ofPass (entry : Path) (pass : Pass) (path : Path) : Visit :=
  ⟨path, pass.wish entry path⟩

/-- The writes of a control file are asked for, whatever its text is by now. -/
def ofGroup (group : Path × List PendingWrite) : Visit :=
  ⟨group.1, fun _ => .ofWrites group.2⟩

def wish (v : Visit) (disk : Disk) : Wish :=
  v.wants (disk.read v.path)

/-- Nothing comes of the visit. -/
def Idle (v : Visit) (disk : Disk) : Prop :=
  v.wish disk = .nothing ∨ ¬ disk.Accepts v.path (v.wish disk)

theorem not_idle_iff {v : Visit} {disk : Disk} :
    ¬ v.Idle disk ↔ v.wish disk ≠ .nothing ∧ disk.Accepts v.path (v.wish disk) := by
  rw [Idle, not_or, Decidable.not_not]

end Visit

/-- A wish that was granted. -/
structure Done where
  path : Path
  wish : Wish

namespace Done

def artifacts (d : Done) : List Path :=
  d.wish.artifacts d.path

/-- The file at the place was rewritten, or added. -/
def WritesAt (d : Done) (disk : Disk) (loc : Location) : Prop :=
  d.wish.rewritten.isSome = true ∧ disk.locate d.path = .ok loc ∨
    ∃ a ∈ d.artifacts, disk.locate a = .ok loc

theorem WritesAt.of_sameDirs {d : Done} {disk disk' : Disk} {loc : Location}
    (h : d.WritesAt disk loc) (hsame : disk.SameDirs disk') : d.WritesAt disk' loc := by
  rcases h with ⟨hrewritten, hloc⟩ | ⟨a, ha, hloc⟩
  · exact .inl ⟨hrewritten, hsame.locate hloc⟩
  · exact .inr ⟨a, ha, hsame.locate hloc⟩

end Done

inductive Journey : Disk → List Visit → List Done → Disk → Prop where
  | stop (disk : Disk) : Journey disk [] [] disk
  | idle {disk disk' : Disk} {v : Visit} {visits : List Visit} {log : List Done} :
      disk.IsScript v.path → v.Idle disk → Journey disk visits log disk' →
      Journey disk (v :: visits) log disk'
  | write {disk disk' : Disk} {v : Visit} {visits : List Visit} {log : List Done}
      {loc : Location} :
      disk.IsScript v.path → disk.Sits v.path loc → ¬ v.Idle disk →
      Journey (disk.grant loc (v.wish disk)) visits log disk' →
      Journey disk (v :: visits) (⟨v.path, v.wish disk⟩ :: log) disk'

namespace Disk

variable {disk disk' : Disk} {path : Path} {loc : Location} {wish : Wish}

/-- No two of the paths lead to the same place. -/
def Scattered (disk : Disk) (paths : List Path) : Prop :=
  paths.Pairwise fun p q => ∀ loc, disk.locate p = .ok loc → disk.locate q ≠ .ok loc

theorem Scattered.of_sameDirs {paths : List Path} (h : disk.Scattered paths)
    (hsame : SameDirs disk disk') : disk'.Scattered paths :=
  h.imp fun hne loc hp hq => hne loc (hsame.symm.locate hp) (hsame.symm.locate hq)

/-- The same directories, and every file is still there. -/
structure Grows (disk disk' : Disk) : Prop where
  sameDirs : SameDirs disk disk'
  files : ∀ loc, (disk.contentsAt? loc).isSome = true → (disk'.contentsAt? loc).isSome = true

namespace Grows

theorem refl (disk : Disk) : Grows disk disk :=
  ⟨.refl disk, fun _ h => h⟩

theorem trans {disk'' : Disk} (h : Grows disk disk') (h' : Grows disk' disk'') :
    Grows disk disk'' :=
  ⟨h.sameDirs.trans h'.sameDirs, fun loc hloc => h'.files loc (h.files loc hloc)⟩

theorem grant (h : (disk.contentsAt? loc).isSome = true) (wish : Wish) :
    Grows disk (disk.grant loc wish) :=
  ⟨sameDirs_grant disk loc wish, fun other hother =>
    (isSome_contentsAt?_grant disk loc other wish h).mpr (.inl hother)⟩

theorem isScript (h : Grows disk disk') (hs : disk.IsScript path) : disk'.IsScript path := by
  obtain ⟨loc, hloc, hat⟩ := isFile_iff.mp hs.isFile
  exact ⟨isFile_iff.mpr ⟨loc, h.sameDirs.locate hloc, h.files loc hat⟩, hs.endsIn, hs.not_manifest⟩

theorem isThere (h : Grows disk disk') (hloc : disk.locate path = .ok loc)
    (hthere : disk.isThere path = true) : disk'.isThere path = true := by
  rw [isThere_of_locate hloc, Bool.or_eq_true] at hthere
  rw [isThere_of_locate (h.sameDirs.locate hloc), Bool.or_eq_true, h.sameDirs.isDirAt]
  exact hthere.imp_left (h.files loc)

end Grows

theorem IsScript.contentsAt? (h : disk.IsScript path) (hs : disk.Sits path loc) :
    (disk.contentsAt? loc).isSome = true := by
  obtain ⟨loc', hloc', hat⟩ := isFile_iff.mp h.isFile
  rw [hs.located] at hloc'
  cases hloc'
  exact hat

theorem Accepts.contentsAt? (h : disk.Accepts path wish) (hs : disk.Sits path loc)
    (hmoved : wish.moved.isSome = true) : (disk.contentsAt? loc.configModule).isSome = false :=
  (hs.accepts_iff.mp h hmoved).1

theorem Accepts.isDirAt (h : disk.Accepts path wish) (hs : disk.Sits path loc)
    (hmoved : wish.moved.isSome = true) : disk.isDirAt loc.configModule = false :=
  (hs.accepts_iff.mp h hmoved).2

/-- The text of a file stays unless the file itself is rewritten. -/
theorem read_grant {other : Path} {loc' : Location} (haccepts : disk.Accepts path wish)
    (hs : disk.Sits path loc) (hloc' : disk.locate other = .ok loc')
    (hat : (disk.contentsAt? loc').isSome = true)
    (hne : wish.rewritten.isSome = true → loc ≠ loc') :
    (disk.grant loc wish).read other = disk.read other := by
  have hne' : wish.moved.isSome = true → loc.configModule ≠ loc' := by
    rintro hmoved rfl
    rw [haccepts.contentsAt? hs hmoved] at hat
    cases hat
  rw [read_of_locate ((sameDirs_grant disk loc wish).locate hloc'),
    textAt_grant_of_ne hne hne', read_of_locate hloc']

end Disk

/-- An idle visit stays idle unless its file is rewritten. -/
theorem Visit.Idle.grant {v : Visit} {disk : Disk} {path : Path} {loc : Location}
    {wish : Wish} (h : v.Idle disk) (hv : disk.IsScript v.path)
    (hwf : disk.WellFormed) (haccepts : disk.Accepts path wish) (hs : disk.Sits path loc)
    (hat : (disk.contentsAt? loc).isSome = true)
    (hne : wish.rewritten.isSome = true → disk.locate v.path ≠ .ok loc) :
    v.Idle (disk.grant loc wish) := by
  obtain ⟨loc', hs', hat'⟩ := hv.sits hwf
  have hread : (disk.grant loc wish).read v.path = disk.read v.path := by
    apply Disk.read_grant haccepts hs hs'.located hat'
    rintro hr rfl
    exact hne hr hs'.located
  have hgrows := Disk.Grows.grant hat wish
  rw [Visit.Idle, Visit.wish, hread]
  rcases h with h | h
  · exact .inl h
  · refine .inr fun haccepts' => h fun hmoved => ?_
    have hfree := haccepts' hmoved
    rw [← Bool.not_eq_true] at hfree ⊢
    exact fun hthere => hfree (hgrows.isThere hs'.beside hthere)

namespace Journey

variable {disk disk' disk'' : Disk} {visits visits' : List Visit} {log log' : List Done}

theorem append (h : Journey disk visits log disk') (h' : Journey disk' visits' log' disk'') :
    Journey disk (visits ++ visits') (log ++ log') disk'' := by
  induction h with
  | stop disk => exact h'
  | idle hscript hidle _ ih => exact .idle hscript hidle (ih h')
  | write hscript hs hbusy _ ih => exact .write hscript hs hbusy (ih h')

theorem grows (h : Journey disk visits log disk') : disk.Grows disk' := by
  induction h with
  | stop disk => exact .refl disk
  | idle _ _ _ ih => exact ih
  | write hscript hs _ _ ih => exact (Disk.Grows.grant (hscript.contentsAt? hs) _).trans ih

theorem wellFormed (h : Journey disk visits log disk') (hwf : disk.WellFormed) :
    disk'.WellFormed := by
  induction h with
  | stop disk => exact hwf
  | idle _ _ _ ih => exact ih hwf
  | write hscript hs hbusy _ ih =>
    obtain ⟨-, haccepts⟩ := Visit.not_idle_iff.mp hbusy
    exact ih (hwf.grant (hscript.contentsAt? hs) (haccepts.isDirAt hs))

theorem contentsAt?_manifest (h : Journey disk visits log disk') (dir : Location) :
    disk'.contentsAt? (dir ++ [Path.manifestName]) =
      disk.contentsAt? (dir ++ [Path.manifestName]) := by
  induction h with
  | stop disk => rfl
  | idle _ _ _ ih => exact ih
  | write hscript hs _ _ ih =>
    rw [ih, Disk.contentsAt?_grant, if_neg fun h => hscript.ne_manifest hs.located dir h.2,
      if_neg fun h => Location.configModule_ne_manifest _ dir h.2]

theorem eq_of_idle (h : Journey disk visits log disk') (hidle : ∀ v ∈ visits, v.Idle disk) :
    log = [] ∧ disk' = disk := by
  induction h with
  | stop disk => exact ⟨rfl, rfl⟩
  | idle _ _ _ ih => exact ih fun v hv => hidle v (List.mem_cons_of_mem _ hv)
  | write _ _ hbusy _ _ => exact absurd (hidle _ List.mem_cons_self) hbusy

theorem idle_of_log_nil (h : Journey disk visits log disk') (hlog : log = []) :
    disk' = disk ∧ ∀ v ∈ visits, v.Idle disk := by
  induction h with
  | stop disk => exact ⟨rfl, nofun⟩
  | idle _ hv _ ih =>
    obtain ⟨hdisk, hrest⟩ := ih hlog
    refine ⟨hdisk, fun v hmem => ?_⟩
    rcases List.mem_cons.mp hmem with rfl | hmem
    · exact hv
    · exact hrest v hmem
  | write _ _ _ _ _ => cases hlog

/-- No file at the place of `path` is rewritten. -/
def Spares (log : List Done) (disk : Disk) (path : Path) : Prop :=
  ∀ d ∈ log, d.wish.rewritten.isSome = true →
    ∀ loc, disk.locate d.path = .ok loc → disk.locate path ≠ .ok loc

theorem Spares.of_sameDirs {path : Path} (h : Spares log disk path)
    (hsame : disk.SameDirs disk') : Spares log disk' path := by
  intro d hd hrewritten loc hloc hpath
  exact h d hd hrewritten loc (hsame.symm.locate hloc) (hsame.symm.locate hpath)

theorem idle_stays (h : Journey disk visits log disk') (hwf : disk.WellFormed) {v : Visit}
    (hv : disk.IsScript v.path) (hidle : v.Idle disk) (hspares : Spares log disk v.path) :
    v.Idle disk' := by
  induction h with
  | stop disk => exact hidle
  | idle _ _ _ ih => exact ih hwf hv hidle hspares
  | write hscript hs hbusy _ ih =>
    obtain ⟨-, haccepts⟩ := Visit.not_idle_iff.mp hbusy
    have hat := hscript.contentsAt? hs
    apply ih (hwf.grant hat (haccepts.isDirAt hs)) ((Disk.Grows.grant hat _).isScript hv)
    · exact hidle.grant hv hwf haccepts hs hat fun hr =>
        hspares _ List.mem_cons_self hr _ hs.located
    · have hrest : Spares _ _ v.path := fun d hd => hspares d (List.mem_cons_of_mem _ hd)
      exact hrest.of_sameDirs (Disk.sameDirs_grant _ _ _)

/-- What was asked for and granted is not asked for again, unless the file is another one now. -/
theorem idle_of_granted {v : Visit} {loc : Location} (hs : disk.Sits v.path loc)
    (hat : (disk.contentsAt? loc).isSome = true) (hbusy : ¬ v.Idle disk)
    (hnone : (v.wish disk).rewritten.isSome = false) :
    v.Idle (disk.grant loc (v.wish disk)) := by
  obtain ⟨hwish, haccepts⟩ := Visit.not_idle_iff.mp hbusy
  have hmoved : (v.wish disk).moved.isSome = true := by
    cases hm : (v.wish disk).moved with
    | some text => rfl
    | none =>
      have hr : (v.wish disk).rewritten = none := by simpa using hnone
      have heta : v.wish disk = ⟨(v.wish disk).moved, (v.wish disk).rewritten⟩ := rfl
      rw [hm, hr] at heta
      exact absurd heta hwish
  have hread : (disk.grant loc (v.wish disk)).read v.path =
      disk.read v.path := by
    apply Disk.read_grant haccepts hs hs.located hat
    rw [hnone]
    exact fun h => absurd h Bool.false_ne_true
  have hwish' : v.wish (disk.grant loc (v.wish disk)) =
      v.wish disk := by
    rw [Visit.wish, hread, Visit.wish]
  refine .inr fun haccepts' => ?_
  rw [hwish'] at haccepts'
  have hfree := haccepts'.contentsAt? (hs.of_sameDirs (Disk.sameDirs_grant _ _ _)) hmoved
  rw [Bool.eq_false_iff] at hfree
  exact hfree ((Disk.isSome_contentsAt?_grant _ _ _ _ hat).mpr (.inr ⟨hmoved, rfl⟩))

/-- Once a journey is over, nothing comes of its visits again, as far as their files were spared. -/
theorem idle_after (h : Journey disk visits log disk') (hwf : disk.WellFormed)
    {v : Visit} (hv : v ∈ visits) (hspares : Spares log disk v.path) : v.Idle disk' := by
  induction h with
  | stop disk => cases hv
  | idle hs hidle hrest ih =>
    rcases List.mem_cons.mp hv with rfl | hv
    · exact hrest.idle_stays hwf hs hidle hspares
    · exact ih hwf hv hspares
  | @write disk _ u _ _ loc hscript hs hbusy hrest ih =>
    obtain ⟨-, haccepts⟩ := Visit.not_idle_iff.mp hbusy
    have hat := hscript.contentsAt? hs
    have hwf' := hwf.grant hat (haccepts.isDirAt hs)
    have hspares' : Spares _ disk v.path := fun d hd => hspares d (List.mem_cons_of_mem _ hd)
    have hspares'' := hspares'.of_sameDirs (Disk.sameDirs_grant disk loc (u.wish disk))
    rcases List.mem_cons.mp hv with rfl | hv
    · have hnone : (v.wish disk).rewritten.isSome = false := by
        rw [← Bool.not_eq_true]
        exact fun hr => hspares _ List.mem_cons_self hr _ hs.located hs.located
      exact hrest.idle_stays hwf' ((Disk.Grows.grant hat _).isScript hscript)
        (idle_of_granted hs hat hbusy hnone) hspares''
    · exact ih hwf' hv hspares''

theorem artifacts_free (h : Journey disk visits log disk') {path : Path} {loc : Location}
    (hpath : path ∈ log.flatMap Done.artifacts) (hloc : disk.locate path = .ok loc) :
    (disk.contentsAt? loc).isSome = false := by
  induction h with
  | stop disk => cases hpath
  | idle _ _ _ ih => exact ih hpath hloc
  | write hscript hs hbusy _ ih =>
    obtain ⟨-, haccepts⟩ := Visit.not_idle_iff.mp hbusy
    have hgrows := Disk.Grows.grant (hscript.contentsAt? hs)
    rw [List.flatMap_cons, List.mem_append] at hpath
    rcases hpath with hpath | hpath
    · obtain ⟨hmoved, rfl⟩ := Wish.mem_artifacts.mp hpath
      rw [hs.beside] at hloc
      cases hloc
      exact haccepts.contentsAt? hs hmoved
    · have hfree := ih hpath ((hgrows _).sameDirs.locate hloc)
      rw [← Bool.not_eq_true] at hfree ⊢
      exact fun hthere => hfree ((hgrows _).files loc hthere)

theorem exists_visit (h : Journey disk visits log disk') {d : Done} (hd : d ∈ log) :
    ∃ v ∈ visits, ∃ mid, d = ⟨v.path, v.wish mid⟩ := by
  induction h with
  | stop disk => cases hd
  | idle _ _ _ ih =>
    obtain ⟨v, hv, mid, hvisit⟩ := ih hd
    exact ⟨v, List.mem_cons_of_mem _ hv, mid, hvisit⟩
  | write _ _ _ _ ih =>
    rcases List.mem_cons.mp hd with rfl | hd
    · exact ⟨_, List.mem_cons_self, _, rfl⟩
    · obtain ⟨v, hv, mid, hvisit⟩ := ih hd
      exact ⟨v, List.mem_cons_of_mem _ hv, mid, hvisit⟩

theorem contentsAt?_of_not_writesAt (h : Journey disk visits log disk') {loc : Location}
    (hlog : ∀ d ∈ log, ¬ d.WritesAt disk loc) : disk'.contentsAt? loc = disk.contentsAt? loc := by
  induction h with
  | stop disk => rfl
  | idle _ _ _ ih => exact ih hlog
  | @write disk _ v _ _ place _ hs _ _ ih =>
    have hsame := Disk.sameDirs_grant disk place (v.wish disk)
    have hhead := hlog _ List.mem_cons_self
    rw [ih fun d hd hwrites =>
        hlog d (List.mem_cons_of_mem _ hd) (hwrites.of_sameDirs hsame.symm),
      Disk.contentsAt?_grant, if_neg, if_neg]
    · rintro ⟨hmoved, rfl⟩
      exact hhead (.inr ⟨_, Wish.mem_artifacts.mpr ⟨hmoved, rfl⟩, hs.beside⟩)
    · rintro ⟨hrewritten, rfl⟩
      exact hhead (.inl ⟨hrewritten, hs.located⟩)

theorem isSome_contentsAt? (h : Journey disk visits log disk') (loc : Location) :
    (disk'.contentsAt? loc).isSome = true ↔
      (disk.contentsAt? loc).isSome = true ∨
        ∃ a ∈ log.flatMap Done.artifacts, disk.locate a = .ok loc := by
  induction h with
  | stop disk => simp
  | idle _ _ _ ih => exact ih
  | @write disk _ v _ log place hscript hs _ _ ih =>
    have hsame := Disk.sameDirs_grant disk place (v.wish disk)
    have hhead : (∃ a ∈ Done.artifacts ⟨v.path, v.wish disk⟩, disk.locate a = .ok loc) ↔
        (v.wish disk).moved.isSome = true ∧ place.configModule = loc := by
      constructor
      · rintro ⟨a, ha, hloc⟩
        obtain ⟨hmoved, rfl⟩ := Wish.mem_artifacts.mp ha
        rw [hs.beside] at hloc
        exact ⟨hmoved, Except.ok.inj hloc⟩
      · rintro ⟨hmoved, rfl⟩
        exact ⟨_, Wish.mem_artifacts.mpr ⟨hmoved, rfl⟩, hs.beside⟩
    have htail : (∃ a ∈ log.flatMap Done.artifacts,
          (disk.grant place (v.wish disk)).locate a = .ok loc) ↔
        ∃ a ∈ log.flatMap Done.artifacts, disk.locate a = .ok loc :=
      exists_congr fun a => and_congr_right fun _ => ⟨hsame.symm.locate, hsame.locate⟩
    rw [ih, Disk.isSome_contentsAt?_grant _ _ _ _ (hscript.contentsAt? hs), htail, ← hhead,
      or_assoc, List.flatMap_cons]
    simp only [List.mem_append, or_and_right, exists_or]

theorem artifacts_new (h : Journey disk visits log disk') {path : Path}
    (hpath : path ∈ log.flatMap Done.artifacts) :
    ∃ loc, disk.locate path = .ok loc ∧ disk.isThere path = false := by
  induction h with
  | stop disk => cases hpath
  | idle _ _ _ ih => exact ih hpath
  | @write disk _ v _ _ _ hscript hs hbusy _ ih =>
    obtain ⟨-, haccepts⟩ := Visit.not_idle_iff.mp hbusy
    have hgrows := Disk.Grows.grant (hscript.contentsAt? hs) (v.wish disk)
    rw [List.flatMap_cons, List.mem_append] at hpath
    rcases hpath with hpath | hpath
    · obtain ⟨hmoved, rfl⟩ := Wish.mem_artifacts.mp hpath
      exact ⟨_, hs.beside, haccepts hmoved⟩
    · obtain ⟨loc, hloc, hfree⟩ := ih hpath
      have hloc' := hgrows.sameDirs.symm.locate hloc
      refine ⟨loc, hloc', ?_⟩
      rw [← Bool.not_eq_true] at hfree ⊢
      exact fun hthere => hfree (hgrows.isThere hloc' hthere)

theorem scattered_artifacts (h : Journey disk visits log disk') :
    disk.Scattered (log.flatMap Done.artifacts) := by
  induction h with
  | stop disk => exact .nil
  | idle _ _ _ ih => exact ih
  | @write disk _ v _ _ loc hscript hs _ hrest ih =>
    have hat := hscript.contentsAt? hs
    have hsame := Disk.sameDirs_grant disk loc (v.wish disk)
    rw [List.flatMap_cons]
    refine List.pairwise_append.mpr ⟨?_, ih.of_sameDirs hsame.symm, ?_⟩
    · rw [Done.artifacts, Wish.artifacts]
      cases (v.wish disk).moved <;> simp
    · intro p hp q hq loc' hp' hq'
      obtain ⟨hmoved, rfl⟩ := Wish.mem_artifacts.mp hp
      rw [hs.beside] at hp'
      cases hp'
      have hfree := hrest.artifacts_free hq (hsame.locate hq')
      have hthere := (Disk.isSome_contentsAt?_grant disk loc loc.configModule (v.wish disk) hat).mpr
        (.inr ⟨hmoved, rfl⟩)
      rw [hfree] at hthere
      cases hthere

end Journey

end Codemod
