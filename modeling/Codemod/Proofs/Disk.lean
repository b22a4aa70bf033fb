import Codemod.Disk

/-!
# Codemod.Proofs.Disk

What paths lead to, and what a write changes.

* `read_of_isFile`: the one thing that keeps an existing file from being read is that it is no
  text.
-/

namespace Codemod

theorem exists_ok_of_any {ε α : Type} {x : Except ε α} {p : α → Bool}
    (h : x.toOption.any p = true) : ∃ a, x = .ok a ∧ p a = true := by
  cases x with
  | error e => cases h
  | ok a => exact ⟨a, rfl, h⟩

namespace Disk

variable {disk : Disk} {path : Path}

/-- There is a file at the end of the path, and it is no text. -/
def Garbled (disk : Disk) (path : Path) : Prop :=
  ∃ bytes, disk.contents? path = some (.bytes bytes)

theorem contents?_eq_some_iff {contents : Contents} :
    disk.contents? path = some contents ↔
      ∃ loc, disk.locate path = .ok loc ∧ disk.contentsAt? loc = some contents := by
  rw [contents?]
  cases disk.locate path with
  | error obstacle => simp [Except.toOption]
  | ok loc => simp [Except.toOption]

theorem read_of_garbled (h : disk.Garbled path) :
    disk.read path = .error (Obstacle.notText.fault path) := by
  obtain ⟨bytes, hbytes⟩ := h
  obtain ⟨loc, hloc, hat⟩ := contents?_eq_some_iff.mp hbytes
  simp [read, hloc, hat]

theorem read_of_isFile (h : disk.isFile path = true) :
    (∃ text, disk.read path = .ok text) ∨
      disk.Garbled path ∧ disk.read path = .error (Obstacle.notText.fault path) := by
  obtain ⟨contents, hc⟩ := Option.isSome_iff_exists.mp h
  obtain ⟨loc, hloc, hat⟩ := contents?_eq_some_iff.mp hc
  cases contents with
  | text value => exact .inl ⟨value, by simp [read, hloc, hat]⟩
  | bytes value => exact .inr ⟨⟨value, hc⟩, read_of_garbled ⟨value, hc⟩⟩

end Disk

end Codemod
