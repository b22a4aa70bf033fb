import Codemod.Proofs.Session.Writing

/-!
# Codemod.Proofs.Session.Mirror

A dry run beside the run that it stands for.

A dry run leaves the disk alone and keeps what it would have written as overrides. `Mirror` says
that, seen through the overrides, the disk looks like the one that the other run has written to: the
files to work on have the same texts, and nothing was added but the new files that are listed.

* `Mirror.grant`: it goes on doing so when a wish is granted to both.
* `Mirror.accepts_iff`: the two grant the same wishes, as long as no two of the new files that the
  dry run lists are at the same place. The dry run looks for them on the disk, where they are not.
-/

namespace Codemod

/-- The text of a file as it is seen through overrides. -/
def readOver (overrides : List (Path × Text)) (disk : Disk) (path : Path) : Except Fault Text :=
  match overrides.find? fun o => o.1.same path with
  | some (_, text) => .ok text
  | none => disk.read path

/-- The overrides with a new text for a file. -/
def overlay (overrides : List (Path × Text)) (path : Path) (text : Text) : List (Path × Text) :=
  (path, text) :: overrides.filter fun o => !o.1.same path

/-- The text that a file is overridden with. -/
def override? (overrides : List (Path × Text)) (path : Path) : Option Text :=
  (overrides.find? fun o => o.1.same path).map (·.2)

theorem readOver_eq (overrides : List (Path × Text)) (disk : Disk) (path : Path) :
    readOver overrides disk path =
      match override? overrides path with
      | some text => .ok text
      | none => disk.read path := by
  rw [readOver, override?]
  cases overrides.find? fun o => o.1.same path <;> rfl

theorem override?_overlay (overrides : List (Path × Text)) (path other : Path) (text : Text) :
    override? (overlay overrides path text) other =
      if path.same other then some text else override? overrides other := by
  rw [override?, overlay, List.find?_cons]
  by_cases hsame : path.same other = true
  · simp [hsame]
  · have hfind : ((overrides.filter fun o => !o.1.same path).find? fun o => o.1.same other) =
        overrides.find? fun o => o.1.same other := by
      rw [List.find?_filter]
      congr 1
      funext o
      -- what is another text of `path` is no text of `other`
      cases hother : o.1.same other with
      | false => simp
      | true =>
        have hpath : o.1.same path = false := by
          rw [← Bool.not_eq_true]
          intro hpath
          rw [Path.same_comm] at hpath
          exact hsame (Path.same_trans hpath hother)
        simp [hpath]
    simp [hsame, hfind, override?]

theorem readOver_overlay (overrides : List (Path × Text)) (disk : Disk) (path other : Path)
    (text : Text) :
    readOver (overlay overrides path text) disk other =
      if path.same other then .ok text else readOver overrides disk other := by
  rw [readOver_eq, readOver_eq, override?_overlay]
  by_cases hsame : path.same other = true
  · rw [if_pos hsame, if_pos hsame]
  · rw [if_neg hsame, if_neg hsame]

/-- The files to work on are there, and those that change go by one path only. -/
structure Workable (disk : Disk) (work changed : List Path) : Prop where
  isScript : ∀ p ∈ work, disk.IsScript p
  alone : ∀ p ∈ work, (∃ c ∈ changed, c.same p = true) →
    ∀ q ∈ work, disk.locate p = disk.locate q → p.same q = true

/-- Seen through the overrides, `disk` looks like `disk'`. -/
structure Mirror (work : List Path) (disk : Disk) (overrides : List (Path × Text))
    (artifacts : List Path) (disk' : Disk) : Prop where
  sameDirs : disk.SameDirs disk'
  texts : ∀ p ∈ work, readOver overrides disk p = disk'.read p
  files : ∀ loc, (disk'.contentsAt? loc).isSome = true ↔
    (disk.contentsAt? loc).isSome = true ∨ ∃ a ∈ artifacts, disk.locate a = .ok loc

namespace Mirror

variable {work changed artifacts : List Path} {disk disk' : Disk}
  {overrides overrides' : List (Path × Text)} {path : Path} {loc : Location} {wish : Wish}

theorem refl (work : List Path) (disk : Disk) : Mirror work disk [] [] disk where
  sameDirs := .refl disk
  texts _ _ := rfl
  files loc := by simp

/-- A granted wish shows through the overrides, if they have the new text. -/
theorem grant (h : Mirror work disk overrides artifacts disk')
    (hwork : Workable disk work changed) (hpath : path ∈ work) (hs : disk.Sits path loc)
    (haccepts : disk'.Accepts path wish)
    (hchanged : wish.rewritten.isSome = true → ∃ c ∈ changed, c.same path = true)
    (hoverrides : ∀ q ∈ work, readOver overrides' disk q =
      match wish.rewritten with
      | some text => if path.same q then .ok text else readOver overrides disk q
      | none => readOver overrides disk q) :
    Mirror work disk overrides' (artifacts ++ wish.artifacts path) (disk'.grant loc wish) := by
  have hs' := hs.of_sameDirs h.sameDirs
  have hat : (disk'.contentsAt? loc).isSome = true :=
    (h.files loc).mpr (.inl ((hwork.isScript path hpath).contentsAt? hs))
  refine ⟨h.sameDirs.trans (Disk.sameDirs_grant disk' loc wish), ?_, ?_⟩
  · intro q hq
    obtain ⟨locq, hlocq, hatq⟩ := Disk.isFile_iff.mp (hwork.isScript q hq).isFile
    have hlocq' := h.sameDirs.locate hlocq
    have hatq' : (disk'.contentsAt? locq).isSome = true := (h.files locq).mpr (.inl hatq)
    rw [hoverrides q hq]
    by_cases hne : wish.rewritten.isSome = true → loc ≠ locq
    · rw [Disk.read_grant haccepts hs' hlocq' hatq' hne, ← h.texts q hq]
      cases hr : wish.rewritten with
      | none => rfl
      | some text =>
        have hsame : path.same q = false := by
          rw [← Bool.not_eq_true]
          intro hsame
          exact hne (by rw [hr]; rfl) (Disk.locate_of_same hsame hs.located hlocq)
        simp [hsame]
    · rw [Classical.not_imp, Classical.not_not] at hne
      obtain ⟨hr, rfl⟩ := hne
      obtain ⟨text, htext⟩ := Option.isSome_iff_exists.mp hr
      have hsame := hwork.alone path hpath (hchanged hr) q hq (hs.located.trans hlocq.symm)
      have hat' : (disk'.grant loc wish).contentsAt? loc = some (.text text) := by
        rw [Disk.contentsAt?_grant, if_pos ⟨hr, rfl⟩, htext]
        rfl
      rw [Disk.read_of_locate ((Disk.sameDirs_grant disk' loc wish).locate hlocq'), Disk.textAt,
        hat', htext]
      simp only [hsame, if_true]
      rfl
  · intro other
    rw [Disk.isSome_contentsAt?_grant disk' loc other wish hat, h.files other, or_assoc]
    refine or_congr_right ?_
    constructor
    · rintro (⟨a, ha, hloca⟩ | ⟨hmoved, rfl⟩)
      · exact ⟨a, List.mem_append_left _ ha, hloca⟩
      · exact ⟨path.configModule,
          List.mem_append_right _ (Wish.mem_artifacts.mpr ⟨hmoved, rfl⟩), hs.beside⟩
    · rintro ⟨a, ha, hloca⟩
      rcases List.mem_append.mp ha with ha | ha
      · exact .inl ⟨a, ha, hloca⟩
      · obtain ⟨hmoved, rfl⟩ := Wish.mem_artifacts.mp ha
        rw [hs.beside] at hloca
        cases hloca
        exact .inr ⟨hmoved, rfl⟩

/-- An override that repeats the text of a file changes nothing. -/
theorem overlay_getD (h : Mirror work disk overrides artifacts disk')
    (hwork : Workable disk work changed) (hpath : path ∈ work) {source : Text}
    (hsource : disk'.read path = .ok source)
    {rewritten : Option Text} (q : Path) (hq : q ∈ work) :
    readOver (overlay overrides path (rewritten.getD source)) disk q =
      match rewritten with
      | some text => if path.same q then .ok text else readOver overrides disk q
      | none => readOver overrides disk q := by
  rw [readOver_overlay]
  cases rewritten with
  | some text => rfl
  | none =>
    split
    · rename_i hsame
      obtain ⟨loc, hloc, -⟩ := Disk.isFile_iff.mp (hwork.isScript path hpath).isFile
      obtain ⟨locq, hlocq, -⟩ := Disk.isFile_iff.mp (hwork.isScript q hq).isFile
      cases Disk.locate_of_same hsame hloc hlocq
      have hread := Disk.read_of_locate (h.sameDirs.locate hloc)
      have hreadq := Disk.read_of_locate (h.sameDirs.locate hlocq)
      rw [h.texts q hq, hreadq]
      rw [hsource] at hread
      cases hat : disk'.textAt loc with
      | error obstacle =>
        rw [hat] at hread
        cases hread
      | ok text =>
        rw [hat] at hread
        cases hread
        rfl
    · rfl

/-- Both disks accept the same wishes, unless the new file is listed already. -/
theorem accepts_iff (h : Mirror work disk overrides artifacts disk') (hs : disk.Sits path loc)
    (hscattered : disk.Accepts path wish → disk.Scattered (artifacts ++ wish.artifacts path)) :
    disk'.Accepts path wish ↔ disk.Accepts path wish := by
  have hs' := hs.of_sameDirs h.sameDirs
  have hdir := h.sameDirs.isDirAt loc.configModule
  rw [hs.accepts_iff, hs'.accepts_iff, hdir]
  constructor
  · intro haccepts hmoved
    obtain ⟨hfree, hnodir⟩ := haccepts hmoved
    refine ⟨?_, hnodir⟩
    rw [← Bool.not_eq_true] at hfree ⊢
    exact fun hthere => hfree ((h.files _).mpr (.inl hthere))
  · intro haccepts hmoved
    obtain ⟨hfree, hnodir⟩ := haccepts hmoved
    refine ⟨?_, hnodir⟩
    rw [← Bool.not_eq_true, h.files]
    rintro (hthere | ⟨a, ha, hloca⟩)
    · rw [hthere] at hfree
      cases hfree
    · have hscattered := hscattered (hs.accepts_iff.mpr haccepts)
      have hne := (List.pairwise_append.mp hscattered).2.2 a ha path.configModule
        (Wish.mem_artifacts.mpr ⟨hmoved, rfl⟩)
      exact hne _ hloca hs.beside

end Mirror

end Codemod
