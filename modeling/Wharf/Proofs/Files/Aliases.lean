import Wharf.Data.Outcome
import Wharf.Proofs.Files.Places

/-!
# Copies between paths that meet

A path can be spelled in several ways. Copying a file to its own place under another spelling
empties it, and a file that is to be copied to its own path is not even looked for.

* `Files.HasFile` says that there is a file to be read, and `Files.KeepsFiles` that no such file is
  taken away, whatever it holds afterwards. Writing and copying take none away.
* `Files.Meet` says that two paths lead to one place.
* `Files.read_of_copy` is what becomes of the files when one of them is copied: a file loses its
  content only at the target, and there only when something else is copied, or the copy meets its
  own target.
-/

namespace Wharf

namespace Files

variable {fs fs' fs'' : Files} {path file source target : Path} {content held : List UInt8}

/-! ## Files that are there -/

/-- A file can be read at the end of a path. -/
def HasFile (fs : Files) (path : Path) : Prop := ∃ content, fs.read path = .ok content

instance (fs : Files) (path : Path) : Decidable (fs.HasFile path) :=
  match h : fs.read path with
  | .ok content => isTrue ⟨content, h⟩
  | .error _ => isFalse (by rintro ⟨content, h'⟩; rw [h] at h'; cases h')

/-- No file is taken away. What it holds may change. -/
def KeepsFiles (fs fs' : Files) : Prop := ∀ path, fs.HasFile path → fs'.HasFile path

theorem KeepsFiles.refl (fs : Files) : fs.KeepsFiles fs := fun _ => id

theorem KeepsFiles.trans (h : fs.KeepsFiles fs') (h' : fs'.KeepsFiles fs'') : fs.KeepsFiles fs'' :=
  fun path hpath => h' path (h path hpath)

/-- Two paths lead to one place. -/
def Meet (fs : Files) (p q : Path) : Prop :=
  ∃ place, fs.locate p = .ok place ∧ fs.locate q = .ok place

instance (fs : Files) (p q : Path) : Decidable (fs.Meet p q) :=
  match h : fs.locate p with
  | .ok place => decidable_of_iff (fs.locate q = .ok place) (by simp [Meet, h])
  | .error _ => isFalse (by rintro ⟨place, hp, -⟩; rw [h] at hp; cases hp)

/-! ## What is overwritten -/

/-- Only what leads to the place of the path can have changed. -/
theorem SameBut.read_or_meet (h : SameBut path fs fs') (hread : fs.read file = .ok held) :
    fs'.read file = .ok held ∨ fs.Meet file path := by
  by_cases hmeet : fs.Meet file path
  · exact .inr hmeet
  · refine .inl ((h.read_iff fun place hfile hpath => ?_).1 hread)
    exact hmeet ⟨place, hfile, hpath⟩

/-- What leads there holds what was written. -/
theorem Overwritten.read_of_meet (h : Overwritten path content fs fs') (hmeet : fs.Meet file path) :
    fs'.read file = .ok content := by
  obtain ⟨place, hfile, hpath⟩ := hmeet
  obtain ⟨written, hwritten, hfind⟩ := read_eq_ok_iff.1 h.read_eq
  rw [h.sameBut.locate_iff, hwritten, Except.ok.injEq] at hpath
  rw [h.sameBut.locate_iff, ← hpath] at hfile
  exact read_eq_ok_iff.2 ⟨written, hfile, hfind⟩

theorem Overwritten.keepsFiles (h : Overwritten path content fs fs') : fs.KeepsFiles fs' := by
  rintro file ⟨held, hread⟩
  rcases h.sameBut.read_or_meet hread with hkept | hmeet
  · exact ⟨held, hkept⟩
  · exact ⟨content, h.read_of_meet hmeet⟩

/-- A copy empties its target first, and overwrites it then. -/
theorem overwritten_of_copy (h : fs.copy source target = .ok fs') :
    ∃ emptied content, Overwritten target [] fs emptied ∧
      emptied.read source = .ok content ∧ Overwritten target content emptied fs' := by
  unfold copy at h
  split at h
  · cases h
  · cases h
  · split at h
    · cases h
    · rename_i emptied hempty
      split at h
      · cases h
      · rename_i content hread
        exact ⟨emptied, content, overwritten_create hempty, hread, overwritten_create h⟩

theorem keepsFiles_of_copy (h : fs.copy source target = .ok fs') :
    fs.KeepsFiles fs' ∧ fs'.HasFile target := by
  obtain ⟨emptied, content, hempty, -, hover⟩ := overwritten_of_copy h
  exact ⟨hempty.keepsFiles.trans hover.keepsFiles, content, hover.read_eq⟩

/-- **What a copy does to the files**: each keeps its content, unless it is at the target, and then
the copy has met its own target or has brought something else. -/
theorem read_of_copy (h : fs.copy source target = .ok fs') (hread : fs.read file = .ok held) :
    fs'.read file = .ok held ∨ fs.Meet file target ∧
      (fs.Meet source target ∨ fs.HasFile source ∧ fs.read source ≠ .ok held) := by
  by_cases hmeet : fs.Meet source target
  · obtain ⟨emptied, content, hempty, -, hover⟩ := overwritten_of_copy h
    have hsame : SameBut target fs fs' := hempty.sameBut.trans hover.sameBut
    exact (hsame.read_or_meet hread).imp_right fun hfile => ⟨hfile, .inl hmeet⟩
  · obtain ⟨content, hsource, hover⟩ := overwritten_copy h fun place hs ht => hmeet ⟨place, hs, ht⟩
    rcases hover.sameBut.read_or_meet hread with hkept | hfile
    · exact .inl hkept
    · by_cases heq : content = held
      · exact .inl (heq ▸ hover.read_of_meet hfile)
      · refine .inr ⟨hfile, .inr ⟨⟨content, hsource⟩, ?_⟩⟩
        rwa [hsource, ne_eq, Except.ok.injEq]

end Files

theorem Value.keepsFiles_writeTo (v : Value) (fs : Files) (path : Path) :
    fs.KeepsFiles (v.writeTo fs path).1 := by
  unfold writeTo
  split
  · exact .refl fs
  · rename_i hcreate
    have hkeeps := (Files.overwritten_create hcreate).keepsFiles
    split <;> exact hkeeps

end Wharf
