import Codemod.Proofs.Project.Load
import Codemod.Proofs.SourceTree
import Mathlib.Data.List.Find

/-!
# Codemod.Proofs.Project.Pages

The files that a run comes to, and their configuration modules.

Files that differ in their extension only may share a configuration module, such as `a.js` and
`a.jsx`. Not so among configuration modules themselves: they are no sources, so a run comes to them
as pages at most, and a page is looked up with one extension after the other until there is a file
(`eq_of_configModule_eq`).
-/

namespace Codemod

namespace Path

theorem splitName_dotted {stem ext : String} (hstem : stem.toList ≠ []) (hext : '.' ∉ ext.toList) :
    splitName (stem ++ "." ++ ext) = (stem, some ext) := by
  have hback : (stem ++ "." ++ ext).toList.reverse =
      ext.toList.reverse ++ '.' :: stem.toList.reverse := by
    simp [String.toList_append]
  have hdots : ∀ c ∈ ext.toList.reverse, (c != '.') = true := by
    intro c hc
    rw [bne_iff_ne]
    rintro rfl
    exact hext (List.mem_reverse.mp hc)
  have htake : (ext.toList.reverse ++ '.' :: stem.toList.reverse).takeWhile (· != '.') =
      ext.toList.reverse := by
    rw [List.takeWhile_append_of_pos hdots]
    simp
  have hdrop : (ext.toList.reverse ++ '.' :: stem.toList.reverse).dropWhile (· != '.') =
      '.' :: stem.toList.reverse := by
    rw [List.dropWhile_append_of_pos hdots]
    simp
  rw [splitName, hback, htake, hdrop]
  cases hcs : stem.toList.reverse with
  | nil => exact absurd (by simpa using hcs) hstem
  | cons c cs =>
    have hstem' : (c :: cs).reverse = stem.toList := by rw [← hcs, List.reverse_reverse]
    simp only [hstem', List.reverse_reverse, String.ofList_toList]

theorem toList_of_splitName {name ext : String} (h : (splitName name).2 = some ext) :
    name.toList = (splitName name).1.toList ++ '.' :: ext.toList := by
  have hsplit := List.takeWhile_append_dropWhile (p := (· != '.')) (l := name.toList.reverse)
  rw [splitName] at h ⊢
  cases hcs : name.toList.reverse.dropWhile (· != '.') with
  | nil => simp [hcs] at h
  | cons dot stem =>
    have hdot : dot = '.' := by
      have hhead := List.head_dropWhile_not (· != '.') (l := name.toList.reverse) (by simp [hcs])
      simpa [hcs] using hhead
    cases stem with
    | nil => simp [hcs] at h
    | cons c stem =>
      simp only [hcs, Option.some.injEq] at h ⊢
      subst hdot
      calc name.toList = name.toList.reverse.reverse := by rw [List.reverse_reverse]
        _ = (name.toList.reverse.takeWhile (· != '.') ++ '.' :: c :: stem).reverse := by
          rw [← hcs, hsplit]
        _ = (String.ofList (c :: stem).reverse).toList ++ '.' :: ext.toList := by
          rw [← h]
          simp

theorem configName_eq (name : String) :
    ∃ ext ∈ ["ts", "js"], configName name = (splitName name).1 ++ ".config." ++ ext := by
  unfold configName
  split
  · exact ⟨"ts", by simp, rfl⟩
  · exact ⟨"ts", by simp, rfl⟩
  · exact ⟨"js", by simp, rfl⟩

theorem stem_eq_of_configName_eq {m n : String} (h : configName m = configName n) :
    (splitName m).1 = (splitName n).1 := by
  obtain ⟨ext, hext, hm⟩ := configName_eq m
  obtain ⟨ext', hext', hn⟩ := configName_eq n
  have hlength : ∀ e ∈ ["ts", "js"], e.toList.length = 2 := by decide
  rw [h, hn] at hm
  have hlists := congrArg String.toList hm
  simp only [String.toList_append] at hlists
  have hstems := (List.append_inj' hlists ((hlength ext' hext').trans (hlength ext hext).symm)).1
  exact (String.toList_injective (List.append_cancel_right hstems)).symm

theorem stem_configName (name : String) :
    (splitName (configName name)).1 = (splitName name).1 ++ ".config" := by
  obtain ⟨ext, hext, hname⟩ := configName_eq name
  have hdots : ∀ e ∈ ["ts", "js"], '.' ∉ e.toList := by decide
  have hshape : configName name = (splitName name).1 ++ ".config" ++ "." ++ ext := by
    have hdot : ".config." = ".config" ++ "." := rfl
    rw [hname, hdot, ← String.append_assoc]
  rw [hshape, splitName_dotted (by simp [String.toList_append]) (hdots ext hext)]

end Path

/-- The extensions that a page is looked up with, in order. -/
def pageExtensions : List String :=
  ["tsx", "ts", "jsx", "js"]

namespace Disk

variable {disk : Disk} {loc : Location}

theorem isName_page {last : Text} (hlast : '/' ∉ last) {ext : String}
    (hext : ext ∈ pageExtensions) : Text.IsName (last ++ ("." ++ ext).toList) := by
  have hletters : ∀ e ∈ pageExtensions, 's' ∈ ("." ++ e).toList ∧ '/' ∉ ("." ++ e).toList := by
    decide
  obtain ⟨hs, hslash⟩ := hletters ext hext
  refine Text.IsName.of_mem (c := 's') (List.mem_append_right last hs) (by decide) ?_
  rw [List.mem_append, not_or]
  exact ⟨hlast, hslash⟩

/-- With another extension a page is beside where it is. -/
theorem locate_page {base ext : String} (hext : ext ∈ pageExtensions)
    (h : disk.locate ⟨base ++ "." ++ ext⟩ = .ok loc) :
    ∃ dir last, ∀ e ∈ pageExtensions,
      disk.locate ⟨base ++ "." ++ e⟩ = .ok (dir ++ [last ++ "." ++ e]) := by
  obtain ⟨front, last, hsplit⟩ : ∃ front last, Text.splitAt '/' base.toList = front ++ [last] :=
    ⟨_, _, (List.dropLast_concat_getLast (Text.splitAt_ne_nil '/' base.toList)).symm⟩
  have hlast : '/' ∉ last :=
    Text.not_mem_of_mem_splitAt (hsplit ▸ List.mem_append_right front List.mem_cons_self)
  have hparts : ∀ e ∈ pageExtensions, (Path.mk (base ++ "." ++ e)).parts =
      front ++ [last ++ ("." ++ e).toList] := by
    intro e he
    have hslash : '/' ∉ ("." ++ e).toList := fun hmem =>
      (isName_page hlast he).no_slash (List.mem_append_right last hmem)
    obtain ⟨front', last', hsplit', hjoined⟩ := Text.splitAt_append (s := base.toList) hslash
    rw [hsplit] at hsplit'
    obtain ⟨rfl, hlast'⟩ := List.append_inj' hsplit' rfl
    cases hlast'
    rw [Path.parts, String.append_assoc, String.toList_append, hjoined]
  have horigin : ∀ e, disk.origin ⟨base ++ "." ++ e⟩ = disk.origin ⟨base ++ "."⟩ := by
    intro e
    have hhead : (base ++ "." ++ e).toList.head? = (base ++ ".").toList.head? := by
      rw [String.toList_append, List.head?_append]
      cases hcs : (base ++ ".").toList with
      | nil => simp [String.toList_append] at hcs
      | cons c cs => rfl
    rw [origin, origin, Path.isAbsolute, Path.isAbsolute, hhead]
  obtain ⟨-, hleads⟩ := locate_eq_ok_iff.mp h
  rw [hparts ext hext, horigin] at hleads
  obtain ⟨dir, hfront, hstep⟩ := leads_append.mp hleads
  obtain ⟨hdir, -⟩ := leads_cons.mp hstep
  refine ⟨dir, String.ofList last, fun e he => locate_eq_ok_iff.mpr ⟨?_, ?_⟩⟩
  · simp [String.toList_append]
  · have hname : String.ofList last ++ "." ++ e = String.ofList (last ++ ("." ++ e).toList) := by
      apply String.toList_injective
      simp [String.toList_append]
    rw [hparts e he, horigin, hname]
    refine leads_append.mpr ⟨dir, hfront, leads_cons.mpr ⟨hdir, ?_⟩⟩
    rw [Location.walk_of_isName (isName_page hlast he)]
    exact leads_nil.mpr rfl

/-- Of the files that a page may be, the one with this extension is the first that is there. -/
def PageAt (disk : Disk) (dir : Location) (last ext : String) : Prop :=
  pageExtensions.find? (fun e => (disk.contentsAt? (dir ++ [last ++ "." ++ e])).isSome) = some ext

end Disk

namespace Project

variable {p : Project} {disk : Disk} {path path' : Path} {loc loc' : Location}

/-- The files that a run comes to. -/
def ComesTo (p : Project) (disk : Disk) (path : Path) : Prop :=
  path ∈ SourceTree.sources disk p.sourceDir ∨ path ∈ p.pageFiles disk

theorem ComesTo.isScript (h : p.ComesTo disk path) (hwf : disk.WellFormed) :
    disk.IsScript path := by
  rcases h with h | h
  · exact (SourceTree.isScript_isSource_of_mem hwf h).1
  · exact isScript_of_mem_pageFiles h

theorem pageAt_of_mem_pageFiles (h : path ∈ p.pageFiles disk) :
    ∃ dir last ext, disk.PageAt dir last ext ∧ ext ∈ pageExtensions ∧
      disk.locate path = .ok (dir ++ [last ++ "." ++ ext]) := by
  rw [pageFiles] at h
  have hfiles := (mem_foldl_addPageFile h).resolve_left List.not_mem_nil
  obtain ⟨page, -, hpage⟩ := List.mem_filterMap.mp hfiles
  rw [pageFile?] at hpage
  generalize (p.sourceDir.join (String.ofList (page.toList.dropWhile (· == '/')))).text = base
    at hpage
  rw [List.find?_map, Option.map_eq_some_iff] at hpage
  obtain ⟨ext, hfind, rfl⟩ := hpage
  have hext : ext ∈ pageExtensions := List.mem_of_find?_eq_some hfind
  have hfile := List.find?_some hfind
  rw [Function.comp_apply] at hfile
  obtain ⟨loc, hloc, -⟩ := Disk.isFile_iff.mp hfile
  obtain ⟨dir, last, hplaces⟩ := Disk.locate_page hext hloc
  refine ⟨dir, last, ext, ?_, hext, hplaces ext hext⟩
  have hsame : ∀ e ∈ pageExtensions, (disk.contentsAt? (dir ++ [last ++ "." ++ e])).isSome =
      disk.isFile ⟨base ++ "." ++ e⟩ := by
    intro e he
    rw [Disk.isFile, Disk.contents?, hplaces e he]
    rfl
  rw [Disk.PageAt, List.find?_congr hsame]
  exact hfind

theorem pageFiles_eq_of_samePaths {disk' : Disk} (h : disk.SamePaths disk') (p : Project) :
    p.pageFiles disk' = p.pageFiles disk := by
  have hfiles : disk'.isFile = disk.isFile := funext h.isFile
  have hpages : p.pageFile? disk' = p.pageFile? disk := by
    funext page
    rw [pageFile?, pageFile?, hfiles]
  rw [pageFiles, pageFiles, hpages]

theorem name_of_mem_sources {dir : Location} {name : String} (hwf : disk.WellFormed)
    (h : path ∈ SourceTree.sources disk p.sourceDir)
    (hloc : disk.locate path = .ok (dir ++ [name])) :
    (∃ ext, (Path.splitName name).2 = some ext) ∧
      Text.holds ".config.".toList name.toList = false := by
  obtain ⟨⟨-, ⟨name', hend⟩, -⟩, hsource⟩ := SourceTree.isScript_isSource_of_mem hwf h
  obtain ⟨dir', -, hplace, -⟩ := Disk.locate_withFileName hend hloc
  obtain ⟨-, hname⟩ := List.append_inj' hplace rfl
  cases (List.cons.inj hname).1
  rw [SourceTree.isSource, Path.extension?, Path.fileName?_of_endsIn hend] at hsource
  cases hext : (Path.splitName name).2 with
  | none => simp [hext] at hsource
  | some ext =>
    simp only [Option.bind_some, hext, Bool.and_eq_true, Bool.not_eq_true'] at hsource
    exact ⟨⟨ext, rfl⟩, hsource.2⟩

theorem stem_page {last ext stem : String} (hext : ext ∈ pageExtensions)
    (h : (Path.splitName (last ++ "." ++ ext)).1 = stem ++ ".config") :
    last = stem ++ ".config" := by
  have hletters : ∀ e ∈ pageExtensions, '.' ∉ e.toList ∧
      (Path.splitName ("" ++ "." ++ e)).1.toList.getLast? ≠ some 'g' := by decide
  obtain ⟨hdot, hend⟩ := hletters ext hext
  by_cases hlast : last.toList = []
  · -- a name that begins with its only dot has no extension
    rw [String.toList_eq_nil_iff] at hlast
    rw [hlast] at h
    rw [h] at hend
    simp [String.toList_append] at hend
  · rw [Path.splitName_dotted hlast hdot] at h
    exact h

/-- Of two files that share a configuration module none is a configuration module. -/
theorem eq_of_configModule_eq (hwf : disk.WellFormed) (hpath : p.ComesTo disk path)
    (hpath' : p.ComesTo disk path') (hloc : disk.locate path = .ok loc.configModule)
    (hloc' : disk.locate path' = .ok loc')
    (heq : loc.configModule.configModule = loc'.configModule) : loc.configModule = loc' := by
  -- the first one is a configuration module by name, so it is a page
  have hholds := Path.holds_configName (loc.getLast?.getD "")
  have hpage : path ∈ p.pageFiles disk := by
    refine hpath.resolve_left fun hsource => ?_
    have hname := (name_of_mem_sources hwf hsource hloc).2
    rw [hholds] at hname
    cases hname
  obtain ⟨dir, last, ext, hat, hext, hplace⟩ := pageAt_of_mem_pageFiles hpage
  have hconfig : loc.configModule = dir ++ [last ++ "." ++ ext] :=
    Except.ok.inj (hloc.symm.trans hplace)
  obtain ⟨-, hnames⟩ := List.append_inj' hconfig rfl
  have hname : Path.configName (loc.getLast?.getD "") = last ++ "." ++ ext :=
    (List.cons.inj hnames).1
  have hstem := Path.stem_configName (loc.getLast?.getD "")
  generalize (Path.splitName (loc.getLast?.getD "")).1 = stem at hstem
  have hlast : last = stem ++ ".config" := stem_page hext (by rw [← hname, hstem])
  -- so the second one has this stem as well
  obtain ⟨name', hend'⟩ := (hpath'.isScript hwf).endsIn
  obtain ⟨dir', -, rfl, -⟩ := Disk.locate_withFileName hend' hloc'
  rw [hconfig, Location.configModule_append, Location.configModule_append] at heq
  obtain ⟨rfl, hnames'⟩ := List.append_inj' heq rfl
  have hstem' := Path.stem_eq_of_configName_eq (List.cons.inj hnames').1
  rw [← hname, hstem] at hstem'
  rw [hconfig]
  rcases hpath' with hsource' | hpage'
  · obtain ⟨⟨ext', hext'⟩, hfree⟩ := name_of_mem_sources hwf hsource' hloc'
    have hlist := Path.toList_of_splitName hext'
    rw [← hstem', String.toList_append, List.append_assoc] at hlist
    have hholds' := Text.holds_append ".config.".toList stem.toList ext'.toList
    rw [hlist] at hfree
    exact absurd (hfree.symm.trans hholds') Bool.false_ne_true
  · obtain ⟨dir', last', ext', hat', hext', hplace'⟩ := pageAt_of_mem_pageFiles hpage'
    have hconfig' := Except.ok.inj (hloc'.symm.trans hplace')
    obtain ⟨rfl, hnames'⟩ := List.append_inj' hconfig' rfl
    have hname' := (List.cons.inj hnames').1
    have hlast' : last' = stem ++ ".config" := stem_page hext' (by rw [← hname', ← hstem'])
    rw [hlast] at hat
    rw [hlast'] at hat'
    have hexts := Option.some.inj (hat.symm.trans hat')
    rw [hname', hlast, hlast', hexts]

end Project

end Codemod
