import Codemod.Proofs.Disk
import Codemod.Proofs.Path

/-!
# Codemod.Proofs.Disk.Locate

Where paths lead.

`Disk.Leads` follows pieces from a location on. Every piece asks for a directory and nothing else,
so where a path leads depends on the working directory and the directories only (`SameDirs`).

* `locate_of_same`: paths with the same components lead to the same place.
* `locate_join`: a name that is joined on leads into the directory.
* `locate_withFileName`: another name in the place of the last one leads to a neighbour.
-/

namespace Codemod

/-- The next location, once a directory is there. -/
def Location.walk (loc : Location) (piece : Text) : Location :=
  if Text.IsIdle piece then loc
  else if piece = ['.', '.'] then loc.dropLast
  else loc ++ [String.ofList piece]

namespace Location

theorem walk_of_isIdle {piece : Text} (h : Text.IsIdle piece) (loc : Location) :
    loc.walk piece = loc := by
  rw [walk, if_pos h]

theorem walk_of_isName {piece : Text} (h : Text.IsName piece) (loc : Location) :
    loc.walk piece = loc ++ [String.ofList piece] := by
  rw [walk, if_neg h.not_idle, if_neg h.not_parent]

end Location

namespace Disk

variable {disk disk' : Disk} {path : Path} {start loc : Location}

theorem follow_of_isDirAt (h : disk.isDirAt start = true) (piece : Text) :
    disk.follow start piece = .ok (start.walk piece) := by
  rw [follow, if_pos h, Location.walk]
  by_cases h₁ : Text.IsIdle piece
  · rw [if_pos (by simpa [Text.IsIdle] using h₁), if_pos h₁]
  · rw [if_neg (by simpa [Text.IsIdle] using h₁), if_neg h₁]
    by_cases h₂ : piece = ['.', '.']
    · rw [if_pos (by simpa using h₂), if_pos h₂]
    · rw [if_neg (by simpa using h₂), if_neg h₂]

theorem follow_eq_ok_iff {piece : Text} :
    disk.follow start piece = .ok loc ↔ disk.isDirAt start = true ∧ loc = start.walk piece := by
  by_cases hdir : disk.isDirAt start = true
  · rw [follow_of_isDirAt hdir, Except.ok.injEq]
    exact ⟨fun h => ⟨hdir, h.symm⟩, fun h => h.2.symm⟩
  · constructor
    · intro h
      rw [follow, if_neg hdir] at h
      split at h <;> cases h
    · intro h
      exact absurd h.1 hdir

/-- Following the pieces from `start` on ends at `loc`. -/
def Leads (disk : Disk) (start : Location) (pieces : List Text) (loc : Location) : Prop :=
  pieces.foldlM disk.follow start = .ok loc

theorem leads_nil : disk.Leads start [] loc ↔ loc = start := by
  constructor
  · intro h
    cases h
    rfl
  · rintro rfl
    rfl

theorem leads_cons {piece : Text} {pieces : List Text} :
    disk.Leads start (piece :: pieces) loc ↔
      disk.isDirAt start = true ∧ disk.Leads (start.walk piece) pieces loc := by
  rw [Leads, List.foldlM_cons]
  cases hstep : disk.follow start piece with
  | error obstacle =>
    constructor
    · intro h
      cases h
    · intro h
      rw [follow_eq_ok_iff.mpr ⟨h.1, rfl⟩] at hstep
      cases hstep
  | ok next =>
    obtain ⟨hdir, rfl⟩ := follow_eq_ok_iff.mp hstep
    exact ⟨fun h => ⟨hdir, h⟩, fun h => h.2⟩

theorem leads_append {front back : List Text} :
    disk.Leads start (front ++ back) loc ↔
      ∃ mid, disk.Leads start front mid ∧ disk.Leads mid back loc := by
  induction front generalizing start with
  | nil => simp [leads_nil]
  | cons piece front ih =>
    simp only [List.cons_append, leads_cons, ih]
    constructor
    · rintro ⟨hdir, mid, h₁, h₂⟩
      exact ⟨mid, ⟨hdir, h₁⟩, h₂⟩
    · rintro ⟨mid, ⟨hdir, h₁⟩, h₂⟩
      exact ⟨hdir, mid, h₁, h₂⟩

theorem Leads.eq_of_idle {junk : List Text} (hjunk : ∀ piece ∈ junk, Text.IsIdle piece)
    (h : disk.Leads start junk loc) : loc = start := by
  induction junk generalizing start with
  | nil => exact leads_nil.mp h
  | cons piece junk ih =>
    obtain ⟨-, h⟩ := leads_cons.mp h
    rw [Location.walk_of_isIdle (hjunk piece List.mem_cons_self)] at h
    exact ih (fun p hp => hjunk p (List.mem_cons_of_mem piece hp)) h

/-- Where pieces lead is decided by the steps among them. -/
theorem Leads.eq_foldl {pieces : List Text} (h : disk.Leads start pieces loc) :
    loc = (pieces.filter fun piece => !decide (Text.IsIdle piece)).foldl Location.walk start := by
  induction pieces generalizing start with
  | nil => exact leads_nil.mp h
  | cons piece pieces ih =>
    obtain ⟨-, h⟩ := leads_cons.mp h
    rw [ih h]
    by_cases hidle : Text.IsIdle piece
    · simp [hidle, Location.walk_of_isIdle hidle]
    · simp [hidle]

theorem leads_name {name : String} (h : Text.IsName name.toList) :
    disk.Leads start [name.toList] loc ↔
      disk.isDirAt start = true ∧ loc = start ++ [name] := by
  rw [leads_cons, leads_nil, Location.walk_of_isName h, String.ofList_toList]

/-- Where a path begins. -/
def origin (disk : Disk) (path : Path) : Location :=
  if path.isAbsolute then [] else disk.home

theorem locate_eq_ok_iff :
    disk.locate path = .ok loc ↔
      path.text.toList ≠ [] ∧ disk.Leads (disk.origin path) path.parts loc := by
  rw [locate]
  split
  · rename_i hempty
    rw [String.isEmpty_iff] at hempty
    simp [hempty]
  · rename_i hempty
    have hne : path.text.toList ≠ [] := by
      intro hnil
      rw [String.toList_eq_nil_iff] at hnil
      exact hempty (by rw [hnil]; rfl)
    exact ⟨fun h => ⟨hne, h⟩, fun h => h.2⟩

/-- The two paths lead to the same place. -/
def SamePlace (disk : Disk) (path path' : Path) : Prop :=
  ∃ loc, disk.locate path = .ok loc ∧ disk.locate path' = .ok loc

theorem samePlace_iff {path' : Path} (h : disk.locate path' = .ok loc) :
    disk.SamePlace path path' ↔ disk.locate path = .ok loc := by
  constructor
  · rintro ⟨loc', hloc, hloc'⟩
    rw [h] at hloc'
    cases hloc'
    exact hloc
  · exact fun hloc => ⟨loc, hloc, h⟩

/-- The working directory and the directories of two trees are the same. -/
structure SameDirs (disk disk' : Disk) : Prop where
  home : disk'.home = disk.home
  dirs : disk'.dirs = disk.dirs

namespace SameDirs

theorem refl (disk : Disk) : SameDirs disk disk :=
  ⟨rfl, rfl⟩

theorem symm (h : SameDirs disk disk') : SameDirs disk' disk :=
  ⟨h.home.symm, h.dirs.symm⟩

theorem trans {disk'' : Disk} (h : SameDirs disk disk') (h' : SameDirs disk' disk'') :
    SameDirs disk disk'' :=
  ⟨h'.home.trans h.home, h'.dirs.trans h.dirs⟩

theorem putAt (disk : Disk) (loc : Location) (contents : Contents) :
    SameDirs disk (disk.putAt loc contents) :=
  ⟨rfl, rfl⟩

theorem isDirAt (h : SameDirs disk disk') (loc : Location) :
    disk'.isDirAt loc = disk.isDirAt loc := by
  rw [Disk.isDirAt, Disk.isDirAt, h.dirs]

theorem leads (h : SameDirs disk disk') {pieces : List Text} (hl : disk.Leads start pieces loc) :
    disk'.Leads start pieces loc := by
  induction pieces generalizing start with
  | nil => exact leads_nil.mpr (leads_nil.mp hl)
  | cons piece pieces ih =>
    obtain ⟨hdir, hl⟩ := leads_cons.mp hl
    exact leads_cons.mpr ⟨(h.isDirAt start).trans hdir, ih hl⟩

theorem locate (h : SameDirs disk disk') (hl : disk.locate path = .ok loc) :
    disk'.locate path = .ok loc := by
  obtain ⟨hne, hl⟩ := locate_eq_ok_iff.mp hl
  refine locate_eq_ok_iff.mpr ⟨hne, ?_⟩
  rw [origin, h.home]
  exact h.leads hl

end SameDirs

theorem locate_of_same {path' : Path} {loc' : Location} (hsame : path.same path' = true)
    (h : disk.locate path = .ok loc) (h' : disk.locate path' = .ok loc') : loc = loc' := by
  obtain ⟨habs, hsteps⟩ := Path.steps_eq_of_same hsame
  obtain ⟨-, h⟩ := locate_eq_ok_iff.mp h
  obtain ⟨-, h'⟩ := locate_eq_ok_iff.mp h'
  have horigin : disk.origin path = disk.origin path' := by
    rw [origin, origin, habs]
  calc loc = path.steps.foldl Location.walk (disk.origin path) := h.eq_foldl
    _ = path'.steps.foldl Location.walk (disk.origin path') := by rw [hsteps, horigin]
    _ = loc' := h'.eq_foldl.symm

theorem locate_join {name : String} (hname : Text.IsName name.toList)
    (h : disk.locate path = .ok loc) (hdir : disk.isDirAt loc = true) :
    disk.locate (path.join name) = .ok (loc ++ [name]) := by
  have hrel := Path.isAbsolute_of_isName hname
  obtain ⟨hne, hl⟩ := locate_eq_ok_iff.mp h
  obtain ⟨junk, hjunk, hparts⟩ := Path.parts_eq_piecesBack path
  have hjoin := Path.parts_join hne hrel
  rw [Text.splitAt_of_not_mem hname.no_slash] at hjoin
  rw [hparts] at hl
  obtain ⟨mid, hfront, hback⟩ := leads_append.mp hl
  have hmid := hback.eq_of_idle hjunk
  subst hmid
  refine locate_eq_ok_iff.mpr ⟨?_, ?_⟩
  · rcases Path.toList_join hne hrel with ⟨t, -, ht⟩ | ⟨-, ht⟩ <;> simp [ht]
  · rw [origin, Path.isAbsolute_join hne hrel, hjoin]
    exact leads_append.mpr ⟨loc, hfront, (leads_name hname).mpr ⟨hdir, rfl⟩⟩

/-- A path that ends in a name leads into a directory, and with another name to a neighbour. -/
theorem locate_withFileName {name : String} (hend : path.EndsIn name)
    (h : disk.locate path = .ok loc) :
    ∃ dir, disk.isDirAt dir = true ∧ loc = dir ++ [name] ∧
      ∀ other : String, Text.IsName other.toList →
        disk.locate (path.withFileName other) = .ok (dir ++ [other]) := by
  obtain ⟨-, hl⟩ := locate_eq_ok_iff.mp h
  obtain ⟨hname, front, hparts⟩ := hend
  have hl' := hl
  rw [hparts] at hl'
  obtain ⟨dir, hfront, hlast⟩ := leads_append.mp hl'
  obtain ⟨hdir, rfl⟩ := (leads_name hname).mp hlast
  refine ⟨dir, hdir, rfl, ?_⟩
  intro other hother
  obtain ⟨front', junk, hjunk, hparts', hother', habs⟩ :=
    Path.withFileName_parts ⟨hname, front, hparts⟩ hother
  have hsplit : front = front' ++ junk :=
    List.append_cancel_right (hparts.symm.trans hparts')
  rw [hsplit] at hfront
  obtain ⟨mid, hfront', hidle⟩ := leads_append.mp hfront
  have hmid := hidle.eq_of_idle hjunk
  subst hmid
  refine locate_eq_ok_iff.mpr ⟨?_, ?_⟩
  · intro hnil
    have hempty : (path.withFileName other).parts = [] ++ [[]] := by
      rw [Path.parts, hnil]
      rfl
    rw [hother'] at hempty
    obtain ⟨-, hlast⟩ := List.append_inj' hempty rfl
    exact hother.ne_nil (List.cons.inj hlast).1
  · rw [origin, habs, hother']
    exact leads_append.mpr ⟨dir, hfront', (leads_name hother).mpr ⟨hdir, rfl⟩⟩

end Disk

end Codemod
