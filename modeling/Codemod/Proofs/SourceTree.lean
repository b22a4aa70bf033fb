import Codemod.Proofs.Disk.Agree
import Codemod.Proofs.Path.Order
import Codemod.Proofs.Session.Journey
import Codemod.SourceTree

/-!
# Codemod.Proofs.SourceTree

The sources below a directory.

* `isScript_of_mem_sources`, `sources_pairwise`: in a well-formed tree every source that is listed
  is there, and none is listed twice.
* `sources_sorted`, `sources_eq_of_samePaths`: the list is in increasing order, and so depends on
  the paths in the tree only.
* `sources_grant`, `Journey.sources_eq`: what a run writes does not change the list, since
  configuration modules are no sources.
-/

namespace Codemod

namespace Disk

variable {disk : Disk} {path : Path} {loc : Location}

theorem WellFormed.isDirAt_dropLast (hwf : disk.WellFormed) (h : disk.isDirAt loc = true) :
    disk.isDirAt loc.dropLast = true := by
  cases loc with
  | nil => exact h
  | cons name loc =>
    rw [isDirAt, Bool.or_eq_true] at h
    rcases h with h | h
    · cases h
    · exact hwf.dirs_inside _ (List.mem_of_elem_eq_true h)

theorem WellFormed.isDirAt_take (hwf : disk.WellFormed) (h : disk.isDirAt loc = true) (k : Nat) :
    disk.isDirAt (loc.take k) = true := by
  induction hn : loc.length generalizing loc with
  | zero =>
    rw [List.eq_nil_of_length_eq_zero hn] at h ⊢
    simpa using h
  | succ n ih =>
    by_cases hk : loc.length ≤ k
    · rw [List.take_of_length_le hk]
      exact h
    · have htake : loc.take k = loc.dropLast.take k := by
        rw [List.dropLast_eq_take, List.take_take]
        congr 1
        omega
      rw [htake]
      exact ih (hwf.isDirAt_dropLast h) (by simp [hn])

/-- What is there and no directory goes by a name. -/
theorem WellFormed.endsIn_of_isFile (hwf : disk.WellFormed) (h : disk.isFile path = true) :
    ∃ name, path.EndsIn name := by
  obtain ⟨loc, hloc, hat⟩ := isFile_iff.mp h
  have hnot := hwf.not_dir hat
  obtain ⟨front, last, hparts⟩ : ∃ front last, path.parts = front ++ [last] :=
    ⟨_, _, (List.dropLast_concat_getLast (Text.splitAt_ne_nil '/' path.text.toList)).symm⟩
  obtain ⟨-, hleads⟩ := locate_eq_ok_iff.mp hloc
  rw [hparts] at hleads
  obtain ⟨dir, -, hstep⟩ := leads_append.mp hleads
  obtain ⟨hdir, hwalk⟩ := leads_cons.mp hstep
  rw [leads_nil] at hwalk
  have hidle : ¬ Text.IsIdle last := by
    intro hidle
    rw [hwalk, Location.walk_of_isIdle hidle, hdir] at hnot
    cases hnot
  have hparent : last ≠ ['.', '.'] := by
    intro hparent
    rw [hwalk, Location.walk, if_neg hidle, if_pos hparent, hwf.isDirAt_dropLast hdir] at hnot
    cases hnot
  have hslash : '/' ∉ last :=
    Text.not_mem_of_mem_splitAt (hparts ▸ List.mem_append_right front List.mem_cons_self)
  refine ⟨String.ofList last, ?_, front, ?_⟩
  · rw [String.toList_ofList]
    exact ⟨hidle, hparent, hslash⟩
  · rw [hparts, String.toList_ofList]

theorem WellFormed.sits_of_isFile (hwf : disk.WellFormed) (h : disk.isFile path = true) :
    ∃ loc, disk.Sits path loc ∧ (disk.contentsAt? loc).isSome = true := by
  obtain ⟨name, hend⟩ := hwf.endsIn_of_isFile h
  exact hwf.sits_of_endsIn hend h

theorem locate_foldl_join {way : List String} (hloc : disk.locate path = .ok loc)
    (hnames : ∀ name ∈ way, Text.IsName name.toList)
    (hdirs : ∀ k < way.length, disk.isDirAt (loc ++ way.take k) = true) :
    disk.locate (way.foldl Path.join path) = .ok (loc ++ way) := by
  induction way generalizing path loc with
  | nil => simpa using hloc
  | cons name way ih =>
    have hdir : disk.isDirAt loc = true := by simpa using hdirs 0 (by simp)
    have hjoin := locate_join (hnames name List.mem_cons_self) hloc hdir
    have hrest := ih hjoin (fun n hn => hnames n (List.mem_cons_of_mem name hn)) (by
      intro k hk
      simpa using hdirs (k + 1) (by simpa using hk))
    simpa using hrest

theorem locate_of_isDir (h : disk.isDir path = true) :
    ∃ loc, disk.locate path = .ok loc ∧ disk.isDirAt loc = true := by
  rw [isDir] at h
  cases hloc : disk.locate path with
  | error obstacle =>
    rw [hloc] at h
    cases h
  | ok loc =>
    rw [hloc] at h
    exact ⟨loc, rfl, h⟩

theorem SameDirs.isDir {disk' : Disk} (hsame : SameDirs disk disk') (h : disk.isDir path = true) :
    disk'.isDir path = true := by
  obtain ⟨loc, hloc, hdir⟩ := locate_of_isDir h
  rw [Disk.isDir, hsame.locate hloc]
  exact (hsame.isDirAt loc).trans hdir

end Disk

namespace Path

theorem endsIn_foldl_join {way : List String} (hway : way ≠ [])
    (hnames : ∀ name ∈ way, Text.IsName name.toList) (path : Path) :
    (way.foldl Path.join path).EndsIn (way.getLast hway) := by
  have hlast := hnames _ (List.getLast_mem hway)
  have hsplit : way.foldl Path.join path =
      (way.dropLast.foldl Path.join path).join (way.getLast hway) := by
    conv => lhs; rw [← List.dropLast_concat_getLast hway]
    rw [List.foldl_append]
    rfl
  rw [hsplit]
  exact (endsIn_of_isName hlast).join (isAbsolute_of_isName hlast) _

end Path

namespace SourceTree

variable {disk : Disk} {dir path : Path} {loc file : Location}

theorem insert_perm (p : Path) (ps : List Path) : (insert p ps).Perm (p :: ps) := by
  induction ps with
  | nil => exact .refl _
  | cons q ps ih =>
    rw [insert]
    split
    · exact .refl _
    · exact (ih.cons q).trans (.swap p q ps)

theorem foldr_insert_perm (ps : List Path) : (ps.foldr insert []).Perm ps := by
  induction ps with
  | nil => exact .refl _
  | cons p ps ih => exact (insert_perm p _).trans (ih.cons p)

/-- The path of a file below a directory, if it is one and no dependency. -/
def pathBelow? (dir : Path) (loc file : Location) : Option Path :=
  let way := file.drop loc.length
  if loc.isPrefixOf file && !way.isEmpty && !way.contains dependencyDir then
    some (way.foldl Path.join dir)
  else none

theorem below_eq (disk : Disk) (dir : Path) (loc : Location) :
    below disk dir loc = (disk.files.map (·.1)).filterMap (pathBelow? dir loc) := by
  rw [below, List.filterMap_map]
  rfl

theorem pathBelow?_eq_some_iff : pathBelow? dir loc file = some path ↔
    ∃ way, way ≠ [] ∧ file = loc ++ way ∧ path = way.foldl Path.join dir ∧
      dependencyDir ∉ way := by
  rw [pathBelow?]
  simp only [Option.ite_none_right_eq_some, Bool.and_eq_true, Option.some.injEq]
  constructor
  · rintro ⟨⟨⟨hbegins, hway⟩, hdependency⟩, hpath⟩
    obtain ⟨way, rfl⟩ := List.isPrefixOf_iff_prefix.mp hbegins
    rw [List.drop_left] at hway hdependency hpath
    exact ⟨way, by simpa using hway, rfl, hpath.symm, by simpa using hdependency⟩
  · rintro ⟨way, hway, rfl, rfl, hdependency⟩
    rw [List.drop_left]
    refine ⟨⟨⟨List.isPrefixOf_iff_prefix.mpr (List.prefix_append loc way), ?_⟩, ?_⟩, rfl⟩
    · simpa using hway
    · simpa using hdependency

theorem pathBelow?_eq_some (h : pathBelow? dir loc file = some path) :
    ∃ way, way ≠ [] ∧ file = loc ++ way ∧ path = way.foldl Path.join dir := by
  obtain ⟨way, hway, hfile, hpath, -⟩ := pathBelow?_eq_some_iff.mp h
  exact ⟨way, hway, hfile, hpath⟩

theorem sources_of_locate (hloc : disk.locate dir = .ok loc) (hdir : disk.isDirAt loc = true) :
    sources disk dir = if dir.fileName? == some dependencyDir then []
      else ((below disk dir loc).filter isSource).foldr insert [] := by
  rw [sources, hloc]
  simp [hdir]

/-- The path that is joined together on the way to a file leads to the file. -/
theorem locate_way (hwf : disk.WellFormed) {way : List String} (hloc : disk.locate dir = .ok loc)
    (hat : (disk.contentsAt? (loc ++ way)).isSome = true) :
    disk.locate (way.foldl Path.join dir) = .ok (loc ++ way) := by
  obtain ⟨contents, hmem⟩ := Disk.mem_files_of_contentsAt? hat
  have hinside := hwf.files_inside _ hmem
  refine Disk.locate_foldl_join hloc ?_ ?_
  · intro name hname
    exact hwf.named _ hmem name (List.mem_append_right loc hname)
  · intro k hk
    have hway : way ≠ [] := by
      rintro rfl
      cases hk
    have htake := hwf.isDirAt_take hinside (loc.length + k)
    rw [List.dropLast_append_of_ne_nil hway, List.take_length_add_append] at htake
    simpa [List.dropLast_eq_take, List.take_take, Nat.min_eq_left (Nat.le_sub_one_of_lt hk)]
      using htake

theorem locate_pathBelow? (hwf : disk.WellFormed) (hloc : disk.locate dir = .ok loc)
    (hfile : file ∈ disk.files.map (·.1)) (h : pathBelow? dir loc file = some path) :
    disk.locate path = .ok file ∧ (disk.contentsAt? file).isSome = true ∧
      ∃ name, path.EndsIn name := by
  obtain ⟨⟨file', contents⟩, hmem, rfl⟩ := List.mem_map.mp hfile
  obtain ⟨way, hway, rfl, rfl⟩ := pathBelow?_eq_some h
  have hnames : ∀ name ∈ way, Text.IsName name.toList := fun name hname =>
    hwf.named _ hmem name (List.mem_append_right loc hname)
  have hat := Disk.contentsAt?_of_mem hmem
  exact ⟨locate_way hwf hloc hat, hat, _, Path.endsIn_foldl_join hway hnames dir⟩

theorem mem_sources (hdir : disk.isDir dir = true) (h : path ∈ sources disk dir) :
    isSource path = true ∧ ∃ loc file, disk.locate dir = .ok loc ∧
      file ∈ disk.files.map (·.1) ∧ pathBelow? dir loc file = some path := by
  obtain ⟨loc, hloc, hat⟩ := Disk.locate_of_isDir hdir
  rw [sources_of_locate hloc hat] at h
  split at h
  · cases h
  · obtain ⟨hbelow, hsource⟩ := List.mem_filter.mp ((foldr_insert_perm _).mem_iff.mp h)
    rw [below_eq] at hbelow
    obtain ⟨file, hfile, hpath⟩ := List.mem_filterMap.mp hbelow
    exact ⟨hsource, loc, file, hloc, hfile, hpath⟩

/-- A path that is no directory has itself as its only source, if any. -/
theorem sources_of_not_isDir (h : disk.isDir dir = false) :
    sources disk dir = if disk.isFile dir && isSource dir then [dir] else [] := by
  rw [sources]
  split
  · rename_i hname
    have hsource : isSource dir = false := by
      rw [isSource, Path.extension?, eq_of_beq hname]
      decide
    rw [hsource, Bool.and_false]
    rfl
  · cases hloc : disk.locate dir with
    | error obstacle =>
      have hfile : disk.isFile dir = false := by
        rw [Disk.isFile, Disk.contents?, hloc]
        rfl
      rw [hfile]
      rfl
    | ok loc =>
      have hat : disk.isDirAt loc = false := by
        rw [Disk.isDir, hloc] at h
        exact h
      simp only [hat, Bool.false_eq_true, if_false]
      cases disk.isFile dir with
      | false => rfl
      | true => cases hsource : isSource dir <;> simp [hsource, insert]

theorem isScript_of_isSource (hfile : disk.isFile path = true) (hends : ∃ name, path.EndsIn name)
    (hsource : isSource path = true) : disk.IsScript path := by
  refine ⟨hfile, hends, ?_⟩
  intro hmanifest
  have hextension : path.extension? = some "json" := by
    rw [Path.extension?, Path.fileName?_of_endsIn hmanifest]
    decide
  rw [isSource, Path.fileName?_of_endsIn hmanifest, hextension] at hsource
  exact absurd hsource (by decide)

theorem isScript_of_mem_sources (hwf : disk.WellFormed) (hdir : disk.isDir dir = true)
    (h : path ∈ sources disk dir) : disk.IsScript path := by
  obtain ⟨hsource, loc, file, hloc, hfile, hpath⟩ := mem_sources hdir h
  obtain ⟨hlocate, hat, hends⟩ := locate_pathBelow? hwf hloc hfile hpath
  exact isScript_of_isSource (Disk.isFile_iff.mpr ⟨file, hlocate, hat⟩) hends hsource

/-- Also where there is no such directory. -/
theorem isScript_isSource_of_mem (hwf : disk.WellFormed) (h : path ∈ sources disk dir) :
    disk.IsScript path ∧ isSource path = true := by
  cases hdir : disk.isDir dir with
  | true => exact ⟨isScript_of_mem_sources hwf hdir h, (mem_sources hdir h).1⟩
  | false =>
    rw [sources_of_not_isDir hdir] at h
    split at h
    · rename_i hself
      obtain ⟨hfile, hsource⟩ := Bool.and_eq_true_iff.mp hself
      cases List.mem_singleton.mp h
      exact ⟨isScript_of_isSource hfile (hwf.endsIn_of_isFile hfile) hsource, hsource⟩
    · cases h

theorem sources_pairwise (hwf : disk.WellFormed) (hdir : disk.isDir dir = true) :
    (sources disk dir).Pairwise fun p q => p.same q = false := by
  obtain ⟨loc, hloc, hat⟩ := Disk.locate_of_isDir hdir
  rw [sources_of_locate hloc hat]
  split
  · exact .nil
  · have hbelow : (below disk dir loc).Pairwise fun p q => p.same q = false := by
      rw [below_eq, List.pairwise_filterMap]
      refine List.Pairwise.imp_of_mem ?_ hwf.distinct
      intro file file' hfile hfile' hne p hp q hq
      rw [← Bool.not_eq_true]
      intro hsame
      obtain ⟨hp, -⟩ := locate_pathBelow? hwf hloc hfile hp
      obtain ⟨hq, -⟩ := locate_pathBelow? hwf hloc hfile' hq
      exact hne (Disk.locate_of_same hsame hp hq)
    refine ((foldr_insert_perm _).pairwise_iff ?_).mpr (hbelow.filter _)
    intro p q h
    rw [Path.same_comm, h]

theorem insert_sorted {p : Path} {ps : List Path}
    (h : ps.Pairwise fun q r => q.lt r = true) (hnew : ∀ q ∈ ps, p.same q = false) :
    (insert p ps).Pairwise fun q r => q.lt r = true := by
  induction ps with
  | nil => simp [insert]
  | cons q ps ih =>
    obtain ⟨hq, hps⟩ := List.pairwise_cons.mp h
    rw [insert]
    split
    · rename_i hlt
      refine List.pairwise_cons.mpr ⟨?_, h⟩
      intro r hr
      rcases List.mem_cons.mp hr with rfl | hr
      · exact hlt
      · exact Path.lt_trans hlt (hq r hr)
    · rename_i hlt
      have hqp : q.lt p = true :=
        (Path.lt_or_lt_of_same_eq_false (hnew q List.mem_cons_self)).resolve_left hlt
      refine List.pairwise_cons.mpr ⟨?_, ih hps fun r hr => hnew r (List.mem_cons_of_mem q hr)⟩
      intro r hr
      rcases List.mem_cons.mp ((insert_perm p ps).mem_iff.mp hr) with rfl | hr
      · exact hqp
      · exact hq r hr

theorem foldr_insert_sorted {ps : List Path} (h : ps.Pairwise fun p q => p.same q = false) :
    (ps.foldr insert []).Pairwise fun p q => p.lt q = true := by
  induction ps with
  | nil => exact .nil
  | cons p ps ih =>
    obtain ⟨hp, hps⟩ := List.pairwise_cons.mp h
    exact insert_sorted (ih hps) fun q hq => hp q ((foldr_insert_perm ps).mem_iff.mp hq)

theorem sources_sorted (hwf : disk.WellFormed) (hdir : disk.isDir dir = true) :
    (sources disk dir).Pairwise fun p q => p.lt q = true := by
  have hdistinct := sources_pairwise hwf hdir
  obtain ⟨loc, hloc, hat⟩ := Disk.locate_of_isDir hdir
  rw [sources_of_locate hloc hat] at hdistinct ⊢
  split
  · exact .nil
  · rename_i hname
    rw [if_neg hname] at hdistinct
    refine foldr_insert_sorted (((foldr_insert_perm _).pairwise_iff ?_).mp hdistinct)
    intro p q h
    rw [Path.same_comm, h]

theorem sources_eq_of_isDir {disk' : Disk} (h : disk.SamePaths disk') (hwf : disk.WellFormed)
    (hwf' : disk'.WellFormed) (hdir : disk.isDir dir = true) :
    sources disk' dir = sources disk dir := by
  obtain ⟨loc, hloc, hat⟩ := Disk.locate_of_isDir hdir
  have hloc' := h.sameDirs.locate hloc
  have hat' := (h.sameDirs.isDirAt loc).trans hat
  have hperm : (sources disk' dir).Perm (sources disk dir) := by
    rw [sources_of_locate hloc hat, sources_of_locate hloc' hat']
    split
    · exact .refl _
    · have hbelow : (below disk' dir loc).Perm (below disk dir loc) := by
        rw [below_eq, below_eq]
        exact (h.keys_perm hwf hwf').filterMap _
      exact (foldr_insert_perm _).trans ((hbelow.filter _).trans (foldr_insert_perm _).symm)
  refine hperm.eq_of_pairwise ?_ (sources_sorted hwf' (h.sameDirs.isDir hdir))
    (sources_sorted hwf hdir)
  intro p q _ _ hpq hqp
  rw [Path.lt_asymm hpq] at hqp
  cases hqp

theorem sources_eq_of_samePaths {disk' : Disk} (h : disk.SamePaths disk') (hwf : disk.WellFormed)
    (hwf' : disk'.WellFormed) (dir : Path) : sources disk' dir = sources disk dir := by
  cases hdir : disk.isDir dir with
  | true => exact sources_eq_of_isDir h hwf hwf' hdir
  | false =>
    have hdir' : disk'.isDir dir = false := by
      rw [← Bool.not_eq_true] at hdir ⊢
      exact mt h.sameDirs.symm.isDir hdir
    rw [sources_of_not_isDir hdir, sources_of_not_isDir hdir', h.isFile]

theorem isSource_configModule
    (hnames : ∀ name ∈ file.configModule, Text.IsName name.toList)
    (h : pathBelow? dir loc file.configModule = some path) : isSource path = false := by
  obtain ⟨way, hway, hfile, rfl⟩ := pathBelow?_eq_some h
  have hlast : way.getLast hway = Path.configName (file.getLast?.getD "") := by
    rw [Location.configModule, ← List.dropLast_concat_getLast hway, ← List.append_assoc] at hfile
    obtain ⟨-, hnames'⟩ := List.append_inj' hfile rfl
    exact (List.cons.inj hnames').1.symm
  have hends := Path.endsIn_foldl_join hway
    (fun name hname => hnames name (by rw [hfile]; exact List.mem_append_right loc hname)) dir
  rw [hlast] at hends
  rw [isSource, Path.extension?, Path.fileName?_of_endsIn hends]
  split
  · rename_i name ext hname _
    cases hname
    rw [Path.holds_configName, Bool.not_true, Bool.and_false]
  · rfl

theorem below_putAt (hat : (disk.contentsAt? file).isSome = true) (contents : Contents) :
    below (disk.putAt file contents) dir loc = below disk dir loc := by
  obtain ⟨old, hmem⟩ := Disk.mem_files_of_contentsAt? hat
  rw [below_eq, below_eq, Disk.putAt, Disk.keys_putFile, if_pos (List.mem_map.mpr ⟨_, hmem, rfl⟩)]

theorem below_putAt_configModule
    (hnames : ∀ name ∈ file.configModule, Text.IsName name.toList) (contents : Contents) :
    (below (disk.putAt file.configModule contents) dir loc).filter isSource =
      (below disk dir loc).filter isSource := by
  rw [below_eq, below_eq, Disk.putAt, Disk.keys_putFile]
  split
  · rfl
  · rw [List.filterMap_append, List.filter_append]
    cases hpath : pathBelow? dir loc file.configModule with
    | none => simp [hpath]
    | some path => simp [hpath, isSource_configModule hnames hpath]

theorem sources_grant (hwf : disk.WellFormed) (hdir : disk.isDir dir = true)
    (hat : (disk.contentsAt? file).isSome = true) (wish : Wish) :
    sources (disk.grant file wish) dir = sources disk dir := by
  obtain ⟨loc, hloc, hdirAt⟩ := Disk.locate_of_isDir hdir
  have hsame := Disk.sameDirs_grant disk file wish
  have hlisted : (below (disk.grant file wish) dir loc).filter isSource =
      (below disk dir loc).filter isSource := by
    obtain ⟨-, hnames⟩ := hwf.configModule hat
    obtain ⟨moved, rewritten⟩ := wish
    cases moved with
    | none =>
      cases rewritten with
      | none => rfl
      | some text => exact congrArg _ (below_putAt hat _)
    | some new =>
      have hadded : (below (disk.putAt file.configModule (.text new)) dir loc).filter isSource =
          (below disk dir loc).filter isSource := below_putAt_configModule hnames (.text new)
      cases rewritten with
      | none => exact hadded
      | some text =>
        refine (congrArg _ (below_putAt ?_ _)).trans hadded
        rw [Disk.contentsAt?_putAt]
        split
        · rfl
        · exact hat
  rw [sources_of_locate (hsame.locate hloc) ((hsame.isDirAt loc).trans hdirAt),
    sources_of_locate hloc hdirAt, hlisted]

end SourceTree

theorem Journey.sources_eq {disk disk' : Disk} {visits : List Visit} {log : List Done} {dir : Path}
    (h : Journey disk visits log disk') (hwf : disk.WellFormed) (hdir : disk.isDir dir = true) :
    SourceTree.sources disk' dir = SourceTree.sources disk dir := by
  induction h with
  | stop disk => rfl
  | idle _ _ _ ih => exact ih hwf hdir
  | write hscript hs hbusy _ ih =>
    obtain ⟨-, haccepts⟩ := Visit.not_idle_iff.mp hbusy
    have hat := hscript.contentsAt? hs
    rw [ih (hwf.grant hat (haccepts.isDirAt hs)) ((Disk.sameDirs_grant _ _ _).isDir hdir),
      SourceTree.sources_grant hwf hdir hat]

end Codemod
