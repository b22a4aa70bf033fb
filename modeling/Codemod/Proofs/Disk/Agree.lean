import Codemod.Proofs.Commit

/-!
# Codemod.Proofs.Disk.Agree

Trees that agree at some places, whatever they hold at the others.

What can be asked about a path is answered by the directories and by what is at the place that it
leads to, so two trees that agree there give the same answers (`AgreeOn.read`, `AgreeOn.isThere`). A
write that is made in both of them keeps the agreement, and one that is made elsewhere does not
matter to it. `SamePaths` is less: the two trees hold the same paths, whatever is in the files.
-/

namespace Codemod

namespace Disk

theorem mem_keys_iff {disk : Disk} {loc : Location} :
    loc ∈ disk.files.map (·.1) ↔ (disk.contentsAt? loc).isSome = true := by
  constructor
  · intro hmem
    obtain ⟨⟨_, contents⟩, hfile, rfl⟩ := List.mem_map.mp hmem
    exact contentsAt?_of_mem hfile
  · intro hat
    obtain ⟨contents, hfile⟩ := mem_files_of_contentsAt? hat
    exact List.mem_map.mpr ⟨_, hfile, rfl⟩

/-- The same directories, and the same contents at these places. -/
structure AgreeOn (places : Location → Prop) (disk disk' : Disk) : Prop where
  sameDirs : SameDirs disk disk'
  contents : ∀ loc, places loc → disk'.contentsAt? loc = disk.contentsAt? loc

/-- The same directories and the same files, in whatever order they are kept. -/
def Alike (disk disk' : Disk) : Prop :=
  AgreeOn (fun _ => True) disk disk'

namespace AgreeOn

variable {places : Location → Prop} {disk disk' disk'' : Disk} {path : Path} {loc : Location}

theorem refl (places : Location → Prop) (disk : Disk) : AgreeOn places disk disk :=
  ⟨.refl disk, fun _ _ => rfl⟩

theorem symm (h : AgreeOn places disk disk') : AgreeOn places disk' disk :=
  ⟨h.sameDirs.symm, fun loc hloc => (h.contents loc hloc).symm⟩

theorem trans (h : AgreeOn places disk disk') (h' : AgreeOn places disk' disk'') :
    AgreeOn places disk disk'' :=
  ⟨h.sameDirs.trans h'.sameDirs, fun loc hloc =>
    (h'.contents loc hloc).trans (h.contents loc hloc)⟩

theorem textAt (h : AgreeOn places disk disk') (hloc : places loc) :
    disk'.textAt loc = disk.textAt loc := by
  rw [Disk.textAt, Disk.textAt, h.contents loc hloc, h.sameDirs.isDirAt]

theorem read (h : AgreeOn places disk disk') (hlocate : disk.locate path = .ok loc)
    (hloc : places loc) : disk'.read path = disk.read path := by
  rw [read_of_locate hlocate, read_of_locate (h.sameDirs.locate hlocate), h.textAt hloc]

theorem isThere (h : AgreeOn places disk disk') (hlocate : disk.locate path = .ok loc)
    (hloc : places loc) : disk'.isThere path = disk.isThere path := by
  rw [isThere_of_locate hlocate, isThere_of_locate (h.sameDirs.locate hlocate),
    h.contents loc hloc, h.sameDirs.isDirAt]

theorem putAt (h : AgreeOn places disk disk') (loc : Location) (contents : Contents) :
    AgreeOn places (disk.putAt loc contents) (disk'.putAt loc contents) := by
  refine ⟨⟨h.sameDirs.home, h.sameDirs.dirs⟩, fun other hother => ?_⟩
  rw [contentsAt?_putAt, contentsAt?_putAt, h.contents other hother]

theorem of_putAt (disk : Disk) (hloc : ¬ places loc) (contents : Contents) :
    AgreeOn places disk (disk.putAt loc contents) := by
  refine ⟨.putAt disk loc contents, fun other hother => ?_⟩
  rw [contentsAt?_putAt, if_neg]
  rintro rfl
  exact hloc hother

end AgreeOn

/-- The same directories, and files at the same places. -/
structure SamePaths (disk disk' : Disk) : Prop where
  sameDirs : SameDirs disk disk'
  files : ∀ loc, (disk'.contentsAt? loc).isSome = (disk.contentsAt? loc).isSome

namespace SamePaths

variable {disk disk' : Disk}

theorem isFile (h : SamePaths disk disk') (path : Path) : disk'.isFile path = disk.isFile path := by
  rw [Bool.eq_iff_iff, isFile_iff, isFile_iff]
  constructor
  · rintro ⟨loc, hloc, hat⟩
    exact ⟨loc, h.sameDirs.symm.locate hloc, by rw [← h.files, hat]⟩
  · rintro ⟨loc, hloc, hat⟩
    exact ⟨loc, h.sameDirs.locate hloc, by rw [h.files, hat]⟩

theorem keys_perm (h : SamePaths disk disk') (hwf : disk.WellFormed) (hwf' : disk'.WellFormed) :
    (disk'.files.map (·.1)).Perm (disk.files.map (·.1)) := by
  rw [List.perm_ext_iff_of_nodup hwf'.distinct hwf.distinct]
  intro loc
  rw [mem_keys_iff, mem_keys_iff, h.files]

end SamePaths

end Disk

end Codemod
