import Wharf.Data.Value

/-!
# Where paths lead, and what writing changes

A path leads to a place by way of directories. Files come and go without touching a directory, so
every path leads to the same place before and after a file is written, and nothing changes but what
is at the place that was written to.

* `Files.read_eq_ok_iff`, `Files.exists?_iff` and `Files.writable_eq_ok_iff` say what is read and
  written where.
* `Files.SameBut` says of two trees that they differ in the file at the end of one path at most;
  all paths lead to the same places in both (`Files.SameBut.locate_iff`). `Files.Overwritten` says
  what that file holds then.
* Files are overwritten by what is to be there: `Files.overwritten_create`,
  `Files.overwritten_copy`, `Value.overwritten_writeTo`. What it takes for a copy to succeed is the
  same whatever it overwrites (`Files.exists_of_copy`, `Files.exists_copy`). It gets through
  whenever the source can be read and the target written (`Files.exists_copy_of_read`).
* `Files.Grows` says that no file is lost. Writing and copying lose none.
* A value that cannot be written spoils no other file (`Value.sameBut_writeTo`).
-/

namespace Wharf

namespace Files

variable {fs fs' fs'' : Files} {path source target : Path} {place next : Place}
  {content : List UInt8}

/-! ## What is read and written where -/

theorem lookup_eq_ok_iff {entry : FileEntry} :
    fs.lookup path = .ok entry ↔
      ∃ place, fs.locate path = .ok place ∧ fs.find place = some entry := by
  unfold lookup
  split
  · rename_i hlocate
    simp [hlocate]
  · rename_i place hlocate
    rw [hlocate]
    split <;> rename_i hfind <;> simp [hfind]

theorem read_eq_ok_iff :
    fs.read path = .ok content ↔
      ∃ place, fs.locate path = .ok place ∧ fs.find place = some (.file content) := by
  rw [← lookup_eq_ok_iff]
  unfold read
  split
  · rename_i h
    rw [h]
    exact ⟨nofun, nofun⟩
  · rename_i h
    rw [h]
    exact ⟨nofun, nofun⟩
  · rename_i h
    rw [h]
    simp

theorem exists?_iff :
    fs.exists? path = true ↔
      ∃ place entry, fs.locate path = .ok place ∧ fs.find place = some entry := by
  have hok : fs.exists? path = true ↔ ∃ entry, fs.lookup path = .ok entry := by
    unfold exists?
    cases fs.lookup path <;> simp
  rw [hok, exists_comm]
  exact exists_congr fun entry => lookup_eq_ok_iff

theorem exists?_of_read (h : fs.read path = .ok content) : fs.exists? path = true := by
  obtain ⟨place, hplace, hfind⟩ := read_eq_ok_iff.1 h
  exact exists?_iff.2 ⟨place, _, hplace, hfind⟩

theorem writable_eq_ok_iff :
    fs.writable path = .ok place ↔
      path.endsWithSlash = false ∧ fs.locate path = .ok place ∧
        fs.find place ≠ some .directory := by
  unfold writable
  cases hfault : faultOf path with
  | some e =>
    refine ⟨nofun, ?_⟩
    rintro ⟨-, hlocate, -⟩
    rw [locate, hfault] at hlocate
    cases hlocate
  | none =>
    cases hslash : path.endsWithSlash with
    | true =>
      dsimp only
      rw [if_pos rfl]
      split <;> exact ⟨nofun, nofun⟩
    | false =>
      dsimp only
      rw [if_neg Bool.false_ne_true]
      cases hlocate : fs.locate path with
      | error e => exact ⟨nofun, nofun⟩
      | ok found =>
        dsimp only
        split
        · rename_i hdirectory
          refine ⟨nofun, ?_⟩
          rintro ⟨-, heq, hfind⟩
          cases heq
          exact absurd hdirectory hfind
        · rename_i hfile
          constructor
          · rintro h
            cases h
            exact ⟨rfl, rfl, hfile⟩
          · rintro ⟨-, heq, -⟩
            cases heq
            rfl

/-! ## Trees with the same directories -/

/-- The same directories are there. -/
def SameDirectories (fs fs' : Files) : Prop :=
  ∀ place, fs.find place = some .directory ↔ fs'.find place = some .directory

namespace SameDirectories

theorem symm (h : fs.SameDirectories fs') : fs'.SameDirectories fs :=
  fun place => (h place).symm

theorem enter_eq_ok (h : fs.SameDirectories fs') {segment : String}
    (ho : fs.enter place segment = .ok next) : fs'.enter place segment = .ok next := by
  unfold enter at ho ⊢
  split
  · rename_i hstay
    rwa [if_pos hstay] at ho
  · rename_i hstay
    rw [if_neg hstay] at ho
    split
    · rename_i hup
      rwa [if_pos hup] at ho
    · rename_i hup
      rw [if_neg hup] at ho
      split
      · rename_i hbelow
        rw [hbelow] at ho
        exact ho
      · rename_i hbelow
        rw [hbelow] at ho
        dsimp only at ho
        split at ho
        · rename_i hfind
          rw [(h _).1 hfind]
          exact ho
        · cases ho
        · cases ho

theorem walk_eq_ok (h : fs.SameDirectories fs') {segments : List String}
    (ho : fs.walk place segments = .ok next) : fs'.walk place segments = .ok next := by
  induction segments generalizing place with
  | nil => exact ho
  | cons segment rest ih =>
    unfold walk at ho ⊢
    split at ho
    · rename_i henter
      rw [h.enter_eq_ok henter]
      exact ih ho
    · cases ho

theorem locate_eq_ok (h : fs.SameDirectories fs') (ho : fs.locate path = .ok place) :
    fs'.locate path = .ok place := by
  unfold locate at ho ⊢
  split at ho
  · cases ho
  · split at ho
    · cases ho
    · rename_i hwalk
      rw [h.walk_eq_ok hwalk]
      exact ho

theorem locate_iff (h : fs.SameDirectories fs') :
    fs.locate path = .ok place ↔ fs'.locate path = .ok place :=
  ⟨h.locate_eq_ok, h.symm.locate_eq_ok⟩

theorem writable_iff (h : fs.SameDirectories fs') :
    fs.writable path = .ok place ↔ fs'.writable path = .ok place := by
  rw [writable_eq_ok_iff, writable_eq_ok_iff, h.locate_iff, ne_eq, ne_eq, h place]

end SameDirectories

/-! ## Trees that differ in one file -/

/-- The trees differ at most in the file at the end of a path. -/
structure SameBut (path : Path) (fs fs' : Files) : Prop where
  directories : fs.SameDirectories fs'
  elsewhere : ∀ place, fs.locate path ≠ .ok place → fs.find place = fs'.find place

namespace SameBut

theorem refl (path : Path) (fs : Files) : SameBut path fs fs :=
  ⟨fun _ => .rfl, fun _ _ => rfl⟩

theorem locate_iff (h : SameBut path fs fs') {other : Path} :
    fs.locate other = .ok place ↔ fs'.locate other = .ok place :=
  h.directories.locate_iff

theorem symm (h : SameBut path fs fs') : SameBut path fs' fs :=
  ⟨h.directories.symm, fun place hne => (h.elsewhere place (mt h.locate_iff.1 hne)).symm⟩

theorem trans (h : SameBut path fs fs') (h' : SameBut path fs' fs'') : SameBut path fs fs'' :=
  ⟨fun place => (h.directories place).trans (h'.directories place), fun place hne =>
    (h.elsewhere place hne).trans (h'.elsewhere place (mt h.locate_iff.2 hne))⟩

/-- A file at another place is the same in both. -/
theorem read_iff (h : SameBut path fs fs') {other : Path}
    (apart : ∀ place, fs.locate other = .ok place → fs.locate path ≠ .ok place) :
    fs.read other = .ok content ↔ fs'.read other = .ok content := by
  rw [read_eq_ok_iff, read_eq_ok_iff]
  refine exists_congr fun place => ?_
  rw [← h.locate_iff]
  refine and_congr_right fun hplace => ?_
  rw [h.elsewhere place (apart place hplace)]

end SameBut

/-- Whatever was there still is. -/
def Grows (fs fs' : Files) : Prop := ∀ path, fs.exists? path = true → fs'.exists? path = true

theorem Grows.refl (fs : Files) : fs.Grows fs := fun _ => id

theorem Grows.trans (h : fs.Grows fs') (h' : fs'.Grows fs'') : fs.Grows fs'' :=
  fun path hpath => h' path (h path hpath)

/-- A file that is put at a place is there, and nothing else changes. -/
theorem find_put_of_writable (h : fs.writable path = .ok place) (entry : FileEntry) (p : Place) :
    (fs.put place entry).find p = if p = place then some entry else fs.find p := by
  refine find_put fs (fun hhome => ?_) entry p
  exact (writable_eq_ok_iff.1 h).2.2 (by rw [find, if_pos hhome])

/-- The file at the end of a path is overwritten, and nothing else changes. -/
structure Overwritten (path : Path) (content : List UInt8) (fs fs' : Files) : Prop where
  sameBut : SameBut path fs fs'
  read_eq : fs'.read path = .ok content

namespace Overwritten

theorem of_sameBut (h : SameBut path fs fs') (ho : Overwritten path content fs' fs'') :
    Overwritten path content fs fs'' :=
  ⟨h.trans ho.sameBut, ho.read_eq⟩

theorem grows (h : Overwritten path content fs fs') : fs.Grows fs' := by
  intro other hother
  obtain ⟨place, entry, hplace, hfind⟩ := exists?_iff.1 hother
  obtain ⟨target, htarget, hcontent⟩ := read_eq_ok_iff.1 h.read_eq
  rw [h.sameBut.locate_iff] at hplace
  by_cases heq : place = target
  · rw [heq] at hplace
    exact exists?_iff.2 ⟨target, _, hplace, hcontent⟩
  · refine exists?_iff.2 ⟨place, entry, hplace, ?_⟩
    rw [← h.sameBut.elsewhere place fun hpath => ?_, hfind]
    rw [h.sameBut.locate_iff, htarget, Except.ok.injEq] at hpath
    exact heq hpath.symm

/-- Overwriting a file does away with what it held. -/
theorem find_eq {gs gs' : Files} (h : SameBut path fs gs) (hf : Overwritten path content fs fs')
    (hg : Overwritten path content gs gs') (p : Place) : fs'.find p = gs'.find p := by
  obtain ⟨place, hplace, hfind⟩ := read_eq_ok_iff.1 hf.read_eq
  obtain ⟨place', hplace', hfind'⟩ := read_eq_ok_iff.1 hg.read_eq
  have hsame := ((hf.sameBut.symm.trans h).trans hg.sameBut)
  rw [← hsame.locate_iff, hplace, Except.ok.injEq] at hplace'
  by_cases hp : p = place
  · rw [hp, hfind, hplace', hfind']
  · refine hsame.elsewhere p fun heq => hp ?_
    rw [hplace, Except.ok.injEq] at heq
    exact heq.symm

end Overwritten

theorem overwritten_put (h : fs.writable path = .ok place) (content : List UInt8) :
    Overwritten path content fs (fs.put place (.file content)) := by
  obtain ⟨-, hlocate, hfile⟩ := writable_eq_ok_iff.1 h
  have hsame : SameBut path fs (fs.put place (.file content)) := by
    refine ⟨fun p => ?_, fun p hne => ?_⟩
    · rw [find_put_of_writable h]
      split
      · rename_i hp
        rw [hp]
        exact ⟨fun hfind => absurd hfind hfile, nofun⟩
      · exact .rfl
    · rw [find_put_of_writable h, if_neg]
      rintro rfl
      exact hne hlocate
  exact ⟨hsame, read_eq_ok_iff.2 ⟨place, hsame.locate_iff.1 hlocate,
    by rw [find_put_of_writable h, if_pos rfl]⟩⟩

/-! ## Writing a file -/

theorem overwritten_create (h : fs.create path content = .ok fs') :
    Overwritten path content fs fs' := by
  unfold create at h
  split at h
  · cases h
  · rename_i hwritable
    cases h
    exact overwritten_put hwritable content

/-- A copy between any two paths leaves a file at the target, and takes none away. -/
theorem grows_of_copy (h : fs.copy source target = .ok fs') :
    fs.Grows fs' ∧ fs'.exists? target = true := by
  unfold copy at h
  split at h
  · cases h
  · cases h
  · split at h
    · cases h
    · rename_i hempty
      split at h
      · cases h
      · have hover := overwritten_create h
        exact ⟨(overwritten_create hempty).grows.trans hover.grows, exists?_of_read hover.read_eq⟩

/-- **What a copy takes**: a file that is there, and a place that can be written. -/
theorem exists_of_copy (h : fs.copy source target = .ok fs') :
    ∃ content place, fs.read source = .ok content ∧ fs.writable target = .ok place := by
  unfold copy create at h
  split at h
  · cases h
  · cases h
  · rename_i content hlookup
    split at h
    · cases h
    · rename_i hcreate
      split at hcreate
      · cases hcreate
      · rename_i place hwritable
        exact ⟨content, place, by rw [read, hlookup], hwritable⟩

/-- **Nothing else is needed** for a copy to another place. -/
theorem exists_copy (hread : fs.read source = .ok content)
    (hwritable : fs.writable target = .ok place) (apart : fs.locate source ≠ .ok place) :
    ∃ fs', fs.copy source target = .ok fs' ∧ Overwritten target content fs fs' := by
  obtain ⟨origin, horigin, hfind⟩ := read_eq_ok_iff.1 hread
  have hempty := (overwritten_put hwritable []).sameBut
  have hagain := hempty.directories.writable_iff.1 hwritable
  have hemptied : (fs.put place (.file [])).read source = .ok content := by
    refine read_eq_ok_iff.2 ⟨origin, hempty.locate_iff.1 horigin, ?_⟩
    rw [find_put_of_writable hwritable, if_neg, hfind]
    rintro rfl
    exact apart horigin
  refine ⟨_, ?_, .of_sameBut hempty (overwritten_put hagain content)⟩
  rw [copy, lookup_eq_ok_iff.2 ⟨origin, horigin, hfind⟩]
  simp only [create, hwritable, hemptied, hagain]

/-- A copy gets through even when both paths lead to one place: there is nothing left to read. -/
theorem exists_copy_of_read (hread : fs.read source = .ok content)
    (hwritable : fs.writable target = .ok place) : ∃ fs', fs.copy source target = .ok fs' := by
  by_cases horigin : fs.locate source = .ok place
  · have hempty := (overwritten_put hwritable []).sameBut
    have hagain := hempty.directories.writable_iff.1 hwritable
    have hemptied : (fs.put place (.file [])).read source = .ok [] := by
      refine read_eq_ok_iff.2 ⟨place, hempty.locate_iff.1 horigin, ?_⟩
      rw [find_put_of_writable hwritable, if_pos rfl]
    obtain ⟨origin, hlocate, hfind⟩ := read_eq_ok_iff.1 hread
    refine ⟨(fs.put place (.file [])).put place (.file []), ?_⟩
    rw [copy, lookup_eq_ok_iff.2 ⟨origin, hlocate, hfind⟩]
    simp only [create, hwritable, hemptied, hagain]
  · obtain ⟨fs', hcopy, -⟩ := exists_copy hread hwritable horigin
    exact ⟨fs', hcopy⟩

/-- A copy to another place overwrites the target with what was read. -/
theorem overwritten_copy (h : fs.copy source target = .ok fs')
    (apart : ∀ place, fs.locate source = .ok place → fs.locate target ≠ .ok place) :
    ∃ content, fs.read source = .ok content ∧ Overwritten target content fs fs' := by
  obtain ⟨content, place, hread, hwritable⟩ := exists_of_copy h
  obtain ⟨copied, hcopied, hover⟩ := exists_copy hread hwritable fun hsource =>
    apart place hsource (writable_eq_ok_iff.1 hwritable).2.1
  rw [h, Except.ok.injEq] at hcopied
  subst hcopied
  exact ⟨content, hread, hover⟩

end Files

namespace Value

variable {v : Value} {fs fs' : Files} {path : Path}

/-! ## Writing a value -/

/-- A value that was written is there as a whole. -/
theorem overwritten_writeTo (h : v.writeTo fs path = (fs', .ok ())) :
    v.encode.fault = none ∧ Files.Overwritten path v.encode.bytes fs fs' := by
  unfold writeTo at h
  split at h
  · cases h
  · rename_i hcreate
    split at h
    · cases h
    · rename_i hfault
      cases h
      exact ⟨hfault, Files.overwritten_create hcreate⟩

/-- A value that could not be written has changed no other file. -/
theorem sameBut_writeTo : Files.SameBut path fs (v.writeTo fs path).1 := by
  unfold writeTo
  split
  · exact .refl path fs
  · rename_i hcreate
    have hsame := (Files.overwritten_create hcreate).sameBut
    split <;> exact hsame

theorem grows_writeTo : fs.Grows (v.writeTo fs path).1 := by
  unfold writeTo
  split
  · exact .refl fs
  · rename_i hcreate
    have hgrows := (Files.overwritten_create hcreate).grows
    split <;> exact hgrows

/-- A value with a fault cannot be written. -/
theorem exists_error_writeTo (hv : v.encode.fault.isSome) (fs : Files) (path : Path) :
    ∃ fs' e, v.writeTo fs path = (fs', .error e) ∧ Files.SameBut path fs fs' := by
  obtain ⟨reason, hreason⟩ := Option.isSome_iff_exists.1 hv
  cases hcreate : fs.create path v.encode.bytes with
  | error e => exact ⟨fs, .file e, by rw [writeTo, hcreate], .refl path fs⟩
  | ok written =>
    exact ⟨written, .serialization reason, by simp only [writeTo, hcreate, hreason],
      (Files.overwritten_create hcreate).sameBut⟩

end Value

end Wharf
