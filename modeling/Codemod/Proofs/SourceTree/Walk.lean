import Codemod.Proofs.Project.Pages
import Codemod.Proofs.SourceTree

/-!
# Codemod.Proofs.SourceTree.Walk

Which files are listed as sources.

A file is told by the way that leads to it from where the listing starts. `Walks` says which files
are come to, by the names on that way and by the name of the file.

* `mem_sources_iff`: these are the files that are listed, each by the path joined together on the
  way.
* `isSource_path_configModule`: where a configuration goes is never listed.
-/

namespace Codemod

namespace Text

theorem holds_iff {piece s : Text} : holds piece s = true ↔ piece <:+: s := by
  induction s with
  | nil => simp [holds]
  | cons c cs ih => rw [holds, Bool.or_eq_true, ih, List.isPrefixOf_iff_prefix, List.infix_cons_iff]

end Text

namespace Path

theorem splitName_eq_some_iff {name ext : String} :
    (splitName name).2 = some ext ↔ ∃ stem : String, stem.toList ≠ [] ∧ '.' ∉ ext.toList ∧
      name = stem ++ "." ++ ext := by
  constructor
  · intro h
    have hname : name = (splitName name).1 ++ "." ++ ext := by
      apply String.toList_injective
      rw [toList_of_splitName h]
      simp [String.toList_append]
    refine ⟨(splitName name).1, ?_, ?_, hname⟩
    · rw [splitName] at h ⊢
      cases hcs : name.toList.reverse.dropWhile (· != '.') with
      | nil => simp [hcs] at h
      | cons dot stem =>
        cases stem with
        | nil => simp [hcs] at h
        | cons c stem => simp
    · rw [splitName] at h
      split at h
      · cases h
      · cases h
      · cases h
        rw [String.toList_ofList, List.mem_reverse]
        intro hmem
        have := List.mem_takeWhile_imp hmem
        simp at this
  · rintro ⟨stem, hstem, hext, rfl⟩
    rw [splitName_dotted hstem hext]

/-- A name is a whole piece of the path. -/
theorem slash_notMem_of_fileName? {p : Path} {name : String} (h : p.fileName? = some name) :
    '/' ∉ name.toList := by
  rw [fileName?] at h
  split at h
  · rename_i value hlast
    cases h
    have hmem : Component.name name ∈ p.components.filter Component.isStep :=
      List.mem_filter.mpr ⟨List.mem_of_getLast? hlast, rfl⟩
    rw [filter_components] at hmem
    obtain ⟨piece, hpiece, heq⟩ := List.mem_map.mp hmem
    rw [Component.ofStep] at heq
    split at heq
    · cases heq
    · rw [← Component.name.inj heq, String.toList_ofList]
      exact Text.not_mem_of_mem_splitAt (List.mem_filter.mp hpiece).1
  · cases h

/-- The configuration module of any path whatsoever has a name of that kind. -/
theorem exists_endsIn_configModule (p : Path) : ∃ name, p.configModule.EndsIn name ∧
    Text.holds ".config.".toList name.toList = true := by
  obtain ⟨stem, hstem, ext, hext, hconfig⟩ : ∃ stem : String, '/' ∉ stem.toList ∧
      ∃ ext : String, '/' ∉ ext.toList ∧
        p.configModule = p.withFileName (stem ++ ".config." ++ ext) := by
    rw [configModule, stem?]
    refine ⟨(p.fileName?.map fun name => (splitName name).1).getD "index", ?_, _, ?_, rfl⟩
    · cases hname : p.fileName? with
      | none => decide
      | some name => exact fun hmem => slash_notMem_of_fileName? hname (mem_splitName hmem)
    · split <;> decide
  have hname : Text.IsName (stem ++ ".config." ++ ext).toList := by
    refine Text.IsName.of_mem (c := 'c') (by simp) (by decide) ?_
    simp [hstem, hext]
  have hjoin (q : Path) : (q.join (stem ++ ".config." ++ ext)).EndsIn (stem ++ ".config." ++ ext) :=
    (endsIn_of_isName hname).join (isAbsolute_of_isName hname) q
  refine ⟨stem ++ ".config." ++ ext, ?_, ?_⟩
  · rw [hconfig, withFileName]
    split
    · exact hjoin _
    · exact hjoin _
  · rw [String.toList_append, String.toList_append, List.append_assoc]
    exact Text.holds_append _ _ _

end Path

namespace SourceTree

/-- A name that sources go by. -/
structure SourceName (name : String) : Prop where
  extension : ∃ stem ext : String, stem.toList ≠ [] ∧ ext ∈ ["js", "jsx", "ts", "tsx"] ∧
    name = stem ++ "." ++ ext
  not_declaration : ¬ ".d.ts".toList <:+ name.toList
  not_config : ¬ ".config.".toList <:+: name.toList

/-- The file that is come to by a path when the files at or below `dir` are listed. None of the
entries on the way is a directory of dependencies. The first of them goes by the name that `dir`
ends in, the others by those on the way to the file. -/
def Walks (disk : Disk) (dir path : Path) (file : Location) : Prop :=
  ∃ loc way name, disk.locate dir = .ok loc ∧ file = loc ++ way ∧
    path = way.foldl Path.join dir ∧ (disk.contentsAt? file).isSome = true ∧
    dependencyDir ∉ dir.fileName?.toList ++ way ∧ file.getLast? = some name ∧ SourceName name

variable {disk : Disk} {dir path : Path} {loc file : Location} {way : List String}

theorem sourceName_iff {name : String} : SourceName name ↔ ∃ ext,
    (Path.splitName name).2 = some ext ∧
      (extensions.contains ext && !(".d.ts".toList.isSuffixOf name.toList) &&
        !(Text.holds ".config.".toList name.toList)) = true := by
  simp only [Bool.and_eq_true, List.contains_iff_mem, Bool.not_eq_true', ← Bool.not_eq_true,
    List.isSuffixOf_iff_suffix, Text.holds_iff]
  constructor
  · rintro ⟨⟨stem, ext, hstem, hext, hname⟩, hdeclaration, hconfig⟩
    have hdots : ∀ e ∈ extensions, '.' ∉ e.toList := by decide
    exact ⟨ext, Path.splitName_eq_some_iff.mpr ⟨stem, hstem, hdots ext hext, hname⟩,
      ⟨hext, hdeclaration⟩, hconfig⟩
  · rintro ⟨ext, hsplit, ⟨hext, hdeclaration⟩, hconfig⟩
    obtain ⟨stem, hstem, -, hname⟩ := Path.splitName_eq_some_iff.mp hsplit
    exact ⟨⟨stem, ext, hstem, hext, hname⟩, hdeclaration, hconfig⟩

theorem isSource_iff :
    isSource path = true ↔ ∃ name, path.fileName? = some name ∧ SourceName name := by
  rw [isSource, Path.extension?]
  cases path.fileName? with
  | none => simp
  | some name =>
    simp only [Option.bind_some, Option.some.injEq, exists_eq_left', sourceName_iff]
    cases Path.splitName name with
    | mk stem ext =>
      cases ext with
      | none => simp
      | some ext => simp

theorem isSource_of_same {path' : Path} (h : path.same path' = true) :
    isSource path = isSource path' := by
  rw [Path.same, beq_iff_eq] at h
  rw [isSource, isSource, Path.extension?, Path.extension?, Path.fileName?, Path.fileName?, h]

/-- Whatever the path, its configuration module goes by no name of a source. -/
theorem isSource_path_configModule (p : Path) : isSource p.configModule = false := by
  obtain ⟨name, hend, hholds⟩ := p.exists_endsIn_configModule
  rw [← Bool.not_eq_true, isSource_iff]
  rintro ⟨name', hname, hsource⟩
  rw [Path.fileName?_of_endsIn hend] at hname
  cases hname
  exact hsource.not_config (Text.holds_iff.mp hholds)

/-- A path on the way to a file ends in the name of the file. -/
theorem fileName?_way (hwf : disk.WellFormed) (hloc : disk.locate dir = .ok loc)
    (hat : (disk.contentsAt? (loc ++ way)).isSome = true) :
    ∃ name, (way.foldl Path.join dir).fileName? = some name ∧
      (loc ++ way).getLast? = some name := by
  have hpath := locate_way hwf hloc hat
  obtain ⟨name, hend⟩ := hwf.endsIn_of_isFile (Disk.isFile_iff.mpr ⟨_, hpath, hat⟩)
  obtain ⟨above, -, hsplit, -⟩ := Disk.locate_withFileName hend hpath
  exact ⟨name, Path.fileName?_of_endsIn hend, by rw [hsplit, List.getLast?_concat]⟩

theorem isDir_of_locate (hloc : disk.locate dir = .ok loc) : disk.isDir dir = disk.isDirAt loc := by
  rw [Disk.isDir, hloc]
  rfl

/-- Where there is a file further down, there is a directory. -/
theorem isDirAt_of_way (hwf : disk.WellFormed) (hway : way ≠ [])
    (hat : (disk.contentsAt? (loc ++ way)).isSome = true) : disk.isDirAt loc = true := by
  obtain ⟨contents, hmem⟩ := Disk.mem_files_of_contentsAt? hat
  have htake := hwf.isDirAt_take (hwf.files_inside _ hmem) loc.length
  rw [List.dropLast_append_of_ne_nil hway, List.take_left] at htake
  exact htake

theorem not_sourceName_dependencyDir : ¬ SourceName dependencyDir := by
  rw [sourceName_iff]
  rintro ⟨ext, hext, -⟩
  have hnone : (Path.splitName dependencyDir).2 = none := by decide
  rw [hnone] at hext
  cases hext

/-- In a directory: what is further down, and not below a directory of dependencies. -/
theorem mem_sources_of_isDirAt (hwf : disk.WellFormed) (hloc : disk.locate dir = .ok loc)
    (hdir : disk.isDirAt loc = true) : path ∈ sources disk dir ↔
      ∃ way, (disk.contentsAt? (loc ++ way)).isSome = true ∧ path = way.foldl Path.join dir ∧
        dependencyDir ∉ dir.fileName?.toList ++ way ∧ isSource path = true := by
  have hstart : (dir.fileName? == some dependencyDir) = true ↔
      dependencyDir ∈ dir.fileName?.toList := by
    rw [beq_iff_eq, Option.mem_toList]
  rw [sources_of_locate hloc hdir]
  split
  · rename_i hname
    constructor
    · intro h
      cases h
    · rintro ⟨way, -, -, hdependency, -⟩
      exact absurd (List.mem_append_left way (hstart.mp hname)) hdependency
  · rename_i hname
    rw [(foldr_insert_perm _).mem_iff, List.mem_filter, below_eq, List.mem_filterMap]
    constructor
    · rintro ⟨⟨file, hfile, hpath⟩, hsource⟩
      obtain ⟨⟨file', contents⟩, hmem, rfl⟩ := List.mem_map.mp hfile
      obtain ⟨way, -, rfl, rfl, hdependency⟩ := pathBelow?_eq_some_iff.mp hpath
      refine ⟨way, Disk.contentsAt?_of_mem hmem, rfl, ?_, hsource⟩
      rw [List.mem_append, not_or]
      exact ⟨fun h => hname (hstart.mpr h), hdependency⟩
    · rintro ⟨way, hat, rfl, hdependency, hsource⟩
      have hway : way ≠ [] := by
        rintro rfl
        rw [List.append_nil] at hat
        rw [hwf.not_dir hat] at hdir
        cases hdir
      obtain ⟨contents, hmem⟩ := Disk.mem_files_of_contentsAt? hat
      refine ⟨⟨loc ++ way, List.mem_map_of_mem hmem, pathBelow?_eq_some_iff.mpr ?_⟩, hsource⟩
      exact ⟨way, hway, rfl, rfl, fun h => hdependency (List.mem_append_right _ h)⟩

theorem mem_sources_iff (hwf : disk.WellFormed) : path ∈ sources disk dir ↔
    ∃ loc way, disk.locate dir = .ok loc ∧ (disk.contentsAt? (loc ++ way)).isSome = true ∧
      path = way.foldl Path.join dir ∧ dependencyDir ∉ dir.fileName?.toList ++ way ∧
      isSource path = true := by
  cases hdir : disk.isDir dir with
  | true =>
    obtain ⟨loc, hloc, hat⟩ := Disk.locate_of_isDir hdir
    rw [mem_sources_of_isDirAt hwf hloc hat]
    constructor
    · rintro ⟨way, h⟩
      exact ⟨loc, way, hloc, h⟩
    · rintro ⟨loc', way, hloc', h⟩
      cases hloc.symm.trans hloc'
      exact ⟨way, h⟩
  | false =>
    -- what is no directory has nothing further down
    have hway : ∀ loc way, disk.locate dir = .ok loc →
        (disk.contentsAt? (loc ++ way)).isSome = true → way = [] := by
      intro loc way hloc hat
      by_contra hway
      rw [isDir_of_locate hloc, isDirAt_of_way hwf hway hat] at hdir
      cases hdir
    rw [sources_of_not_isDir hdir]
    constructor
    · intro h
      split at h
      · rename_i hself
        obtain ⟨hfile, hsource⟩ := Bool.and_eq_true_iff.mp hself
        cases List.mem_singleton.mp h
        obtain ⟨loc, hloc, hat⟩ := Disk.isFile_iff.mp hfile
        refine ⟨loc, [], hloc, by rwa [List.append_nil], rfl, ?_, hsource⟩
        rw [List.append_nil, Option.mem_toList]
        intro hname
        obtain ⟨name, hname', hsource⟩ := isSource_iff.mp hsource
        rw [hname] at hname'
        cases hname'
        exact not_sourceName_dependencyDir hsource
      · cases h
    · rintro ⟨loc, way, hloc, hat, rfl, -, hsource⟩
      obtain rfl := hway loc way hloc hat
      rw [List.append_nil] at hat
      have hself : (disk.isFile dir && isSource dir) = true :=
        Bool.and_eq_true_iff.mpr ⟨Disk.isFile_iff.mpr ⟨loc, hloc, hat⟩, hsource⟩
      rw [if_pos hself]
      exact List.mem_singleton.mpr rfl

theorem walks_iff (hwf : disk.WellFormed) : Walks disk dir path file ↔
    ∃ loc way, disk.locate dir = .ok loc ∧ file = loc ++ way ∧
      (disk.contentsAt? file).isSome = true ∧ path = way.foldl Path.join dir ∧
      dependencyDir ∉ dir.fileName?.toList ++ way ∧ isSource path = true := by
  constructor
  · rintro ⟨loc, way, name, hloc, rfl, rfl, hat, hdependency, hlast, hsource⟩
    obtain ⟨name', hname, hlast'⟩ := fileName?_way hwf hloc hat
    rw [hlast] at hlast'
    cases hlast'
    exact ⟨loc, way, hloc, rfl, hat, rfl, hdependency, isSource_iff.mpr ⟨name, hname, hsource⟩⟩
  · rintro ⟨loc, way, hloc, rfl, hat, rfl, hdependency, hsource⟩
    obtain ⟨name, hname, hlast⟩ := fileName?_way hwf hloc hat
    obtain ⟨name', hname', hsource⟩ := isSource_iff.mp hsource
    rw [hname] at hname'
    cases hname'
    exact ⟨loc, way, name, hloc, rfl, rfl, hat, hdependency, hlast, hsource⟩

theorem sources_increasing (hwf : disk.WellFormed) (dir : Path) :
    (sources disk dir).Pairwise fun p q => p.lt q = true := by
  cases hdir : disk.isDir dir with
  | true => exact sources_sorted hwf hdir
  | false =>
    rw [sources_of_not_isDir hdir]
    split
    · exact List.pairwise_singleton _ _
    · exact .nil

/-- The sources are listed in increasing order. They are the files that are come to with the name of
a source, on a way without a directory of dependencies, each of them once; a configuration module is
not among them. -/
theorem sources_walk (hwf : disk.WellFormed) (dir : Path) :
    (sources disk dir).Pairwise (fun p q => p.lt q = true) ∧
      (∀ path, path ∈ sources disk dir ↔ ∃ file, Walks disk dir path file) ∧
      (∀ path file, Walks disk dir path file → disk.locate path = .ok file) ∧
      (∀ path ∈ sources disk dir, ∀ other ∈ sources disk dir,
        disk.locate path = disk.locate other → path = other) ∧
      ∀ path ∈ sources disk dir, ∀ p : Path, path.same p.configModule = false := by
  refine ⟨sources_increasing hwf dir, ?_, ?_, ?_, ?_⟩
  · intro path
    rw [mem_sources_iff hwf]
    constructor
    · rintro ⟨loc, way, hloc, hat, h⟩
      exact ⟨loc ++ way, (walks_iff hwf).mpr ⟨loc, way, hloc, rfl, hat, h⟩⟩
    · rintro ⟨file, h⟩
      obtain ⟨loc, way, hloc, rfl, h⟩ := (walks_iff hwf).mp h
      exact ⟨loc, way, hloc, h⟩
  · rintro path file ⟨loc, way, name, hloc, rfl, rfl, hat, -⟩
    exact locate_way hwf hloc hat
  · intro path hpath other hother heq
    obtain ⟨loc, way, hloc, hat, rfl, -⟩ := (mem_sources_iff hwf).mp hpath
    obtain ⟨loc', way', hloc', hat', rfl, -⟩ := (mem_sources_iff hwf).mp hother
    cases hloc.symm.trans hloc'
    rw [locate_way hwf hloc hat, locate_way hwf hloc hat'] at heq
    rw [List.append_cancel_left (Except.ok.inj heq)]
  · intro path hpath p
    obtain ⟨-, -, -, -, -, -, hsource⟩ := (mem_sources_iff hwf).mp hpath
    rw [← Bool.not_eq_true]
    intro hsame
    rw [isSource_of_same hsame, isSource_path_configModule] at hsource
    cases hsource

/-- A tree with one of each kind of file that is passed over. -/
def mixedDisk : Disk :=
  let tree := [["src"], ["src", "a-b"], ["src", "a"], ["src", "node_modules"]].foldl
    Disk.makeDirAt (Disk.bare [])
  [["src", "a-b", "x.js"], ["src", "a", "x.ts"], ["src", "node_modules", "x.js"], ["src", "t.d.ts"],
    ["src", "a", "x.config.ts"], ["src", "app.css"], ["src", ".js"]].foldl
    (fun disk loc => disk.putAt loc (.text [])) tree

theorem sources_walk_mixed :
    mixedDisk.WellFormed ∧
      sources mixedDisk ⟨"src"⟩ = [⟨"src/a/x.ts"⟩, ⟨"src/a-b/x.js"⟩] ∧
      (∃ file, Walks mixedDisk ⟨"src"⟩ ⟨"src/a-b/x.js"⟩ file) ∧
      ¬ ∃ file, Walks mixedDisk ⟨"src"⟩ ⟨"src/node_modules/x.js"⟩ file := by
  have hwf : mixedDisk.WellFormed := by decide +kernel
  have hlist : sources mixedDisk ⟨"src"⟩ = [⟨"src/a/x.ts"⟩, ⟨"src/a-b/x.js"⟩] := by decide +kernel
  obtain ⟨-, hmem, -⟩ := sources_walk hwf ⟨"src"⟩
  refine ⟨hwf, hlist, ?_, ?_⟩
  · rw [← hmem, hlist]
    decide
  · rw [← hmem, hlist]
    decide

end SourceTree

end Codemod
