import Codemod.Pass.PageConfig
import Codemod.Proofs.Disk.Locate

/-!
# Codemod.Proofs.Disk.Place

The place of a script on the disk, and of the configuration module beside it.

`WellFormed` is what a file tree promises: no place is two files or a file and a directory, what is
there is in a directory, and names are names. In such a tree a script that is there can be replaced,
and its configuration module has a place in the same directory (`IsScript.sits`). What is to be
written for a script is a `Wish`; `Disk.grant` is the tree once it is granted, and it is well formed
again. Package manifests are no scripts and no configuration modules.
-/

namespace Codemod

namespace Path

/-- The name of a package manifest. -/
def manifestName : String := "package.json"

/-- The name of the configuration module of a file. -/
def configName (name : String) : String :=
  (splitName name).1 ++ ".config." ++
    match (splitName name).2 with
    | some "ts" | some "tsx" => "ts"
    | _ => "js"

theorem configModule_of_endsIn {p : Path} {name : String} (h : p.EndsIn name) :
    p.configModule = p.withFileName (configName name) := by
  rw [configModule, stem?, extension?, fileName?_of_endsIn h]
  rfl

theorem mem_splitName {name : String} {c : Char} (h : c ∈ (splitName name).1.toList) :
    c ∈ name.toList := by
  have hdrop : ∀ d ∈ name.toList.reverse.dropWhile (· != '.'), d ∈ name.toList := by
    intro d hd
    exact List.mem_reverse.mp ((List.dropWhile_sublist _).mem hd)
  rw [splitName] at h
  cases hcs : name.toList.reverse.dropWhile (· != '.') with
  | nil =>
    simp only [hcs] at h
    exact h
  | cons dot stem =>
    cases stem with
    | nil =>
      simp only [hcs] at h
      exact h
    | cons e stem =>
      simp only [hcs, String.toList_ofList, List.mem_reverse] at h
      exact hdrop c (hcs ▸ List.mem_cons_of_mem dot h)

theorem toList_configName (name : String) :
    ∃ ext : Text, '/' ∉ ext ∧
      (configName name).toList = (splitName name).1.toList ++ (".config.".toList ++ ext) := by
  unfold configName
  split
  · exact ⟨"ts".toList, by decide, by simp only [String.toList_append, List.append_assoc]⟩
  · exact ⟨"ts".toList, by decide, by simp only [String.toList_append, List.append_assoc]⟩
  · exact ⟨"js".toList, by decide, by simp only [String.toList_append, List.append_assoc]⟩

theorem isName_configName {name : String} (h : Text.IsName name.toList) :
    Text.IsName (configName name).toList := by
  obtain ⟨ext, hext, hlist⟩ := toList_configName name
  have hstem : '/' ∉ (splitName name).1.toList := fun hmem => h.no_slash (mem_splitName hmem)
  rw [hlist]
  refine Text.IsName.of_mem (c := 'c') (by simp) (by decide) ?_
  simp [hstem, hext]

end Path

namespace Text

theorem holds_append (piece front back : Text) : holds piece (front ++ (piece ++ back)) = true := by
  induction front with
  | nil =>
    cases hp : piece ++ back with
    | nil =>
      have hnil : piece = [] := (List.append_eq_nil_iff.mp hp).1
      simp [holds, hnil]
    | cons c cs =>
      have hbegins : piece.isPrefixOf (c :: cs) = true := by
        rw [← hp, List.isPrefixOf_iff_prefix]
        exact List.prefix_append piece back
      simp [holds, hbegins]
  | cons c front ih => simp [holds, ih]

end Text

theorem Path.holds_configName (name : String) :
    Text.holds ".config.".toList (configName name).toList = true := by
  obtain ⟨ext, -, hlist⟩ := toList_configName name
  rw [hlist]
  exact Text.holds_append _ _ _

theorem Path.configName_ne_manifestName (name : String) : configName name ≠ manifestName := by
  intro heq
  have hholds := holds_configName name
  rw [heq] at hholds
  exact absurd hholds (by decide)

/-- What is to be written for a file. -/
structure Wish where
  /-- The text of a new configuration module beside the file. -/
  moved : Option Text
  /-- The new text of the file. -/
  rewritten : Option Text
  deriving DecidableEq, Repr, Inhabited

namespace Location

/-- The place of the configuration module beside a file. -/
def configModule (loc : Location) : Location :=
  loc.dropLast ++ [Path.configName (loc.getLast?.getD "")]

theorem configModule_append (dir : Location) (name : String) :
    configModule (dir ++ [name]) = dir ++ [Path.configName name] := by
  simp [configModule]

theorem configModule_ne_manifest (loc dir : Location) :
    loc.configModule ≠ dir ++ [Path.manifestName] := by
  intro heq
  obtain ⟨-, hname⟩ := List.append_inj' heq rfl
  exact Path.configName_ne_manifestName _ (List.cons.inj hname).1

end Location

namespace Disk

variable {disk disk' : Disk} {path : Path} {loc : Location}

/-- What a file tree promises. -/
structure WellFormed (disk : Disk) : Prop where
  /-- No two files are at the same place. -/
  distinct : (disk.files.map (·.1)).Nodup
  /-- No place is both a file and a directory. -/
  apart : ∀ f ∈ disk.files, disk.isDirAt f.1 = false
  /-- Files are in directories. -/
  files_inside : ∀ f ∈ disk.files, disk.isDirAt f.1.dropLast = true
  /-- Directories are in directories. -/
  dirs_inside : ∀ d ∈ disk.dirs, disk.isDirAt d.dropLast = true
  /-- A file has a name in every directory on the way to it. -/
  named : ∀ f ∈ disk.files, ∀ name ∈ f.1, Text.IsName name.toList

instance (disk : Disk) : Decidable disk.WellFormed :=
  decidable_of_iff
    ((disk.files.map (·.1)).Nodup ∧ (∀ f ∈ disk.files, disk.isDirAt f.1 = false) ∧
      (∀ f ∈ disk.files, disk.isDirAt f.1.dropLast = true) ∧
      (∀ d ∈ disk.dirs, disk.isDirAt d.dropLast = true) ∧
      ∀ f ∈ disk.files, ∀ name ∈ f.1, Text.IsName name.toList)
    ⟨fun ⟨h₁, h₂, h₃, h₄, h₅⟩ => ⟨h₁, h₂, h₃, h₄, h₅⟩,
      fun ⟨h₁, h₂, h₃, h₄, h₅⟩ => ⟨h₁, h₂, h₃, h₄, h₅⟩⟩

theorem mem_files_of_contentsAt? (h : (disk.contentsAt? loc).isSome = true) :
    ∃ contents, (loc, contents) ∈ disk.files := by
  rw [contentsAt?, Option.isSome_map] at h
  obtain ⟨⟨found, contents⟩, hfind⟩ := Option.isSome_iff_exists.mp h
  have hloc : found = loc := by simpa using List.find?_some hfind
  exact ⟨contents, hloc ▸ List.mem_of_find?_eq_some hfind⟩

theorem contentsAt?_of_mem {contents : Contents} (h : (loc, contents) ∈ disk.files) :
    (disk.contentsAt? loc).isSome = true := by
  rw [contentsAt?, Option.isSome_map, List.find?_isSome]
  exact ⟨(loc, contents), h, by simp⟩

theorem isFile_iff :
    disk.isFile path = true ↔
      ∃ loc, disk.locate path = .ok loc ∧ (disk.contentsAt? loc).isSome = true := by
  rw [isFile, Option.isSome_iff_exists]
  constructor
  · rintro ⟨contents, h⟩
    obtain ⟨loc, hloc, hat⟩ := contents?_eq_some_iff.mp h
    exact ⟨loc, hloc, by rw [hat]; rfl⟩
  · rintro ⟨loc, hloc, hat⟩
    obtain ⟨contents, hcontents⟩ := Option.isSome_iff_exists.mp hat
    exact ⟨contents, contents?_eq_some_iff.mpr ⟨loc, hloc, hcontents⟩⟩

theorem isThere_of_locate (h : disk.locate path = .ok loc) :
    disk.isThere path = ((disk.contentsAt? loc).isSome || disk.isDirAt loc) := by
  rw [isThere, isFile, isDir, contents?, h]
  rfl

/-- The text at a place, with the obstacle that stands before it. -/
def textAt (disk : Disk) (loc : Location) : Except Obstacle Text :=
  match disk.contentsAt? loc with
  | some (.text value) => .ok value
  | some (.bytes _) => .error .notText
  | none => .error (if disk.isDirAt loc then .isDirectory else .missing)

theorem read_of_locate (h : disk.locate path = .ok loc) :
    disk.read path = (disk.textAt loc).mapError fun o => o.fault path := by
  rw [read, h, textAt]
  cases hat : disk.contentsAt? loc with
  | none =>
    simp only [hat]
    rfl
  | some contents =>
    cases contents <;>
      · simp only [hat]
        rfl

/-- A script has its place, and beside it is one for its configuration module. -/
structure Sits (disk : Disk) (path : Path) (loc : Location) : Prop where
  located : disk.locate path = .ok loc
  beside : disk.locate path.configModule = .ok loc.configModule
  not_dir : disk.isDirAt loc = false

theorem Sits.of_sameDirs (h : disk.Sits path loc) (hsame : SameDirs disk disk') :
    disk'.Sits path loc :=
  ⟨hsame.locate h.located, hsame.locate h.beside, (hsame.isDirAt loc).trans h.not_dir⟩

/-- The path ends in a name, other than that of a manifest, and a file is there. -/
structure IsScript (disk : Disk) (path : Path) : Prop where
  isFile : disk.isFile path = true
  endsIn : ∃ name, path.EndsIn name
  not_manifest : ¬ path.EndsIn Path.manifestName

theorem WellFormed.not_dir (hwf : disk.WellFormed) (h : (disk.contentsAt? loc).isSome = true) :
    disk.isDirAt loc = false := by
  obtain ⟨contents, hmem⟩ := mem_files_of_contentsAt? h
  exact hwf.apart _ hmem

theorem WellFormed.sits_of_endsIn (hwf : disk.WellFormed) {name : String}
    (hend : path.EndsIn name) (h : disk.isFile path = true) :
    ∃ loc, disk.Sits path loc ∧ (disk.contentsAt? loc).isSome = true := by
  obtain ⟨loc, hloc, hat⟩ := isFile_iff.mp h
  obtain ⟨dir, hdir, rfl, hother⟩ := locate_withFileName hend hloc
  refine ⟨dir ++ [name], ⟨hloc, ?_, hwf.not_dir hat⟩, hat⟩
  rw [Path.configModule_of_endsIn hend, Location.configModule_append]
  exact hother _ (Path.isName_configName hend.1)

theorem IsScript.sits (hwf : disk.WellFormed) (h : disk.IsScript path) :
    ∃ loc, disk.Sits path loc ∧ (disk.contentsAt? loc).isSome = true := by
  obtain ⟨hfile, ⟨name, hend⟩, -⟩ := h
  exact hwf.sits_of_endsIn hend hfile

theorem IsScript.ne_manifest (h : disk.IsScript path) (hloc : disk.locate path = .ok loc)
    (dir : Location) : loc ≠ dir ++ [Path.manifestName] := by
  obtain ⟨name, hend⟩ := h.endsIn
  obtain ⟨dir', -, rfl, -⟩ := locate_withFileName hend hloc
  intro heq
  obtain ⟨-, hname⟩ := List.append_inj' heq rfl
  cases (List.cons.inj hname).1
  exact h.not_manifest hend

/-- The tree after a wish was granted: the configuration module is added beside the file, and the
file is replaced. -/
def grant (disk : Disk) (loc : Location) (wish : Wish) : Disk :=
  let added := match wish.moved with
    | some text => disk.putAt loc.configModule (.text text)
    | none => disk
  match wish.rewritten with
  | some text => added.putAt loc (.text text)
  | none => added

theorem sameDirs_grant (disk : Disk) (loc : Location) (wish : Wish) :
    SameDirs disk (disk.grant loc wish) := by
  obtain ⟨moved, rewritten⟩ := wish
  cases moved <;> cases rewritten <;> exact ⟨rfl, rfl⟩

theorem contentsAt?_grant (disk : Disk) (loc other : Location) (wish : Wish) :
    (disk.grant loc wish).contentsAt? other =
      if wish.rewritten.isSome ∧ loc = other then wish.rewritten.map .text
      else if wish.moved.isSome ∧ loc.configModule = other then wish.moved.map .text
      else disk.contentsAt? other := by
  obtain ⟨moved, rewritten⟩ := wish
  cases moved <;> cases rewritten <;> simp [grant, contentsAt?_putAt]

theorem isSome_contentsAt?_grant (disk : Disk) (loc other : Location) (wish : Wish)
    (h : (disk.contentsAt? loc).isSome = true) :
    ((disk.grant loc wish).contentsAt? other).isSome = true ↔
      (disk.contentsAt? other).isSome = true ∨
        wish.moved.isSome = true ∧ loc.configModule = other := by
  rw [contentsAt?_grant]
  by_cases h₁ : wish.rewritten.isSome = true ∧ loc = other
  · obtain ⟨hr, rfl⟩ := h₁
    simp [hr, h]
  · rw [if_neg h₁]
    by_cases h₂ : wish.moved.isSome = true ∧ loc.configModule = other
    · simp [h₂]
    · simp [h₂]

theorem textAt_grant_of_ne {other : Location} {wish : Wish}
    (hne : wish.rewritten.isSome = true → loc ≠ other)
    (hne' : wish.moved.isSome = true → loc.configModule ≠ other) :
    (disk.grant loc wish).textAt other = disk.textAt other := by
  have hat : (disk.grant loc wish).contentsAt? other = disk.contentsAt? other := by
    rw [contentsAt?_grant, if_neg fun h => hne h.1 h.2, if_neg fun h => hne' h.1 h.2]
  rw [textAt, textAt, hat, (sameDirs_grant disk loc wish).isDirAt]

theorem mem_putFile {contents : Contents} {fs : List (Location × Contents)}
    {f : Location × Contents} (h : f ∈ putFile loc contents fs) : f = (loc, contents) ∨ f ∈ fs := by
  induction fs with
  | nil => exact .inl (List.mem_singleton.mp h)
  | cons g fs ih =>
    rw [putFile] at h
    split at h
    · rcases List.mem_cons.mp h with h | h
      · exact .inl h
      · exact .inr (List.mem_cons_of_mem g h)
    · rcases List.mem_cons.mp h with rfl | h
      · exact .inr List.mem_cons_self
      · exact (ih h).imp_right (List.mem_cons_of_mem g)

theorem keys_putFile (loc : Location) (contents : Contents) (fs : List (Location × Contents)) :
    (putFile loc contents fs).map (·.1) =
      if loc ∈ fs.map (·.1) then fs.map (·.1) else fs.map (·.1) ++ [loc] := by
  induction fs with
  | nil => rfl
  | cons f fs ih =>
    rw [putFile]
    by_cases h : f.1 = loc
    · simp [h]
    · simp only [beq_iff_eq, h, if_false, List.map_cons, ih, List.mem_cons, Ne.symm h, false_or]
      split <;> rfl

/-- A file may be put where no directory is, into a directory and under a name. -/
theorem WellFormed.putAt (hwf : disk.WellFormed) (hfree : disk.isDirAt loc = false)
    (hinside : disk.isDirAt loc.dropLast = true) (hnames : ∀ name ∈ loc, Text.IsName name.toList)
    (contents : Contents) : (disk.putAt loc contents).WellFormed where
  distinct := by
    rw [Disk.putAt, keys_putFile]
    split
    · exact hwf.distinct
    · rename_i hnew
      refine List.nodup_append.mpr ⟨hwf.distinct, List.nodup_cons.mpr ⟨nofun, .nil⟩, ?_⟩
      rintro a ha b hb rfl
      exact hnew (List.mem_singleton.mp hb ▸ ha)
  apart f hf := by
    rcases mem_putFile hf with rfl | hf
    · exact hfree
    · exact hwf.apart f hf
  files_inside f hf := by
    rcases mem_putFile hf with rfl | hf
    · exact hinside
    · exact hwf.files_inside f hf
  dirs_inside := hwf.dirs_inside
  named f hf := by
    rcases mem_putFile hf with rfl | hf
    · exact hnames
    · exact hwf.named f hf

theorem WellFormed.putAt_of_isSome (hwf : disk.WellFormed)
    (h : (disk.contentsAt? loc).isSome = true) (contents : Contents) :
    (disk.putAt loc contents).WellFormed := by
  obtain ⟨old, hmem⟩ := mem_files_of_contentsAt? h
  exact hwf.putAt (hwf.apart _ hmem) (hwf.files_inside _ hmem) (hwf.named _ hmem) contents

theorem WellFormed.configModule (hwf : disk.WellFormed)
    (h : (disk.contentsAt? loc).isSome = true) :
    disk.isDirAt loc.configModule.dropLast = true ∧
      ∀ name ∈ loc.configModule, Text.IsName name.toList := by
  obtain ⟨old, hmem⟩ := mem_files_of_contentsAt? h
  have hne : loc ≠ [] := by
    rintro rfl
    have := hwf.apart _ hmem
    cases this
  obtain ⟨dir, name, rfl⟩ : ∃ dir name, loc = dir ++ [name] :=
    ⟨loc.dropLast, loc.getLast hne, (List.dropLast_concat_getLast hne).symm⟩
  have hnames := hwf.named _ hmem
  rw [Location.configModule_append]
  constructor
  · simpa using hwf.files_inside _ hmem
  · intro n hn
    rcases List.mem_append.mp hn with hn | hn
    · exact hnames n (List.mem_append_left _ hn)
    · rw [List.mem_singleton.mp hn]
      exact Path.isName_configName (hnames name (by simp))

theorem WellFormed.grant (hwf : disk.WellFormed) (h : (disk.contentsAt? loc).isSome = true)
    {wish : Wish} (hfree : wish.moved.isSome = true → disk.isDirAt loc.configModule = false) :
    (disk.grant loc wish).WellFormed := by
  obtain ⟨hinside, hnames⟩ := hwf.configModule h
  obtain ⟨moved, rewritten⟩ := wish
  cases moved with
  | none =>
    cases rewritten with
    | none => exact hwf
    | some text => exact hwf.putAt_of_isSome h (.text text)
  | some new =>
    have hadded := hwf.putAt (hfree rfl) hinside hnames (.text new)
    cases rewritten with
    | none => exact hadded
    | some text =>
      refine hadded.putAt_of_isSome ?_ (.text text)
      rw [contentsAt?_putAt]
      split
      · rfl
      · exact h

end Disk

end Codemod
