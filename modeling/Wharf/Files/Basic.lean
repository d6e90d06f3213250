import Wharf.Files.Path

/-!
# Files

A tree of directories and files, kept as a list of places with what is there. Relative paths are
looked up from the working directory, absolute ones from the root. Of the tree around the working
directory nothing is known but the directories that lead there.

* `Files.read` and `Files.create` open a file, `Files.copy` overwrites one file with another.
* `Files.exists?` looks whether something is there.
* `Files.contents` lists the files below the working directory.
* `FileError.message` words the errors.
-/

namespace Wharf

/-- Why a file cannot be used. -/
inductive FileError
  | notFound
  | isDirectory
  | notDirectory
  /-- Only regular files can be copied. -/
  | notRegular
  /-- The bytes are no text. -/
  | notText
  /-- A name or the whole path is too long. -/
  | tooLong
  /-- No file is named with the character zero. -/
  | unnameable
  deriving DecidableEq

/-- The text of an error. -/
def FileError.message : FileError → String
  | notFound => "No such file or directory (os error 2)"
  | isDirectory => "Is a directory (os error 21)"
  | notDirectory => "Not a directory (os error 20)"
  | notRegular => "the source path is neither a regular file nor a symlink to a regular file"
  | notText => "stream did not contain valid UTF-8"
  | tooLong => "File name too long (os error 36)"
  | unnameable => "file name contained an unexpected NUL byte"

/-- The names that lead from the root to a place. -/
abbrev Place := List String

/-- What is at a place. -/
inductive FileEntry
  | directory
  | file (content : List UInt8)
  deriving DecidableEq

/-- What is where, but for the directories that lead to the working directory. -/
structure Files where
  entries : List (Place × FileEntry)

namespace Files

/-- The tree with nothing but the working directory. -/
def empty : Files := ⟨[]⟩

instance : Inhabited Files := ⟨empty⟩

/-! ## Places -/

/-- The working directory. -/
def home : Place := ["tmp", "work"]

/-- What is at a place. The directories that lead to the working directory are always there. -/
def find (fs : Files) (place : Place) : Option FileEntry :=
  if place <+: home then some .directory else fs.entries.lookup place

/-- Puts something at a place, over what was there. -/
def put (fs : Files) (place : Place) (entry : FileEntry) : Files :=
  ⟨(place, entry) :: fs.entries.filter fun e => e.1 != place⟩

/-- Takes away what is at a place. -/
def drop (fs : Files) (place : Place) : Files :=
  ⟨fs.entries.filter fun e => e.1 != place⟩

theorem lookup_filter_ne (entries : List (Place × FileEntry)) (place p : Place) :
    (entries.filter fun e => e.1 != place).lookup p =
      if p = place then none else entries.lookup p := by
  induction entries with
  | nil => simp
  | cons e rest ih =>
    obtain ⟨q, entry⟩ := e
    by_cases hq : q = place
    · subst hq
      by_cases hp : p = q
      · simpa [hp] using ih
      · have hb : (p == q) = false := beq_false_of_ne hp
        simpa [List.lookup_cons, hb, hp] using ih
    · by_cases hp : p = q
      · subst hp
        simp [hq]
      · have hb : (p == q) = false := beq_false_of_ne hp
        simpa [hq, List.lookup_cons, hb] using ih

theorem find_put (fs : Files) {place : Place} (h : ¬ place <+: home) (entry : FileEntry)
    (p : Place) : (fs.put place entry).find p = if p = place then some entry else fs.find p := by
  by_cases hp : p = place
  · subst hp
    simp [find, put, h]
  · have hb : (p == place) = false := beq_false_of_ne hp
    simp [find, put, List.lookup_cons, hb, hp, lookup_filter_ne]

theorem find_drop (fs : Files) {place : Place} (h : ¬ place <+: home) (p : Place) :
    (fs.drop place).find p = if p = place then none else fs.find p := by
  by_cases hp : p = place
  · subst hp
    simp [find, drop, h, lookup_filter_ne]
  · simp [find, drop, hp, lookup_filter_ne]

/-- The bytes of the longest name. -/
def longestName : Nat := 255

/-- The bytes of the longest path. -/
def longestPath : Nat := 4095

/-- What is wrong with a path wherever it leads. -/
def faultOf (path : Path) : Option FileError :=
  if path.text.toList.contains '\x00' then some .unnameable
  else if path.text.isEmpty then some .notFound
  else if longestPath < path.text.utf8ByteSize then some .tooLong
  else none

/-- The place of a name in a directory. -/
def below (place : Place) (name : String) : Except FileError Place :=
  if longestName < name.utf8ByteSize then .error .tooLong else .ok (place ++ [name])

/-- Goes one name down from a directory. -/
def enter (fs : Files) (place : Place) (segment : String) : Except FileError Place :=
  if segment = "" ∨ segment = "." then .ok place
  else if segment = ".." then .ok place.dropLast
  else
    match below place segment with
    | .error e => .error e
    | .ok next =>
      match fs.find next with
      | some .directory => .ok next
      | some (.file _) => .error .notDirectory
      | none => .error .notFound

/-- Goes down through directories. -/
def walk (fs : Files) (place : Place) : List String → Except FileError Place
  | [] => .ok place
  | segment :: rest =>
    match fs.enter place segment with
    | .ok next => fs.walk next rest
    | .error e => .error e

/-- Where a path starts. -/
def origin (path : Path) : Place := if path.isAbsolute then [] else home

/-- The place a path leads to. All of it but the last name has to be there. -/
def locate (fs : Files) (path : Path) : Except FileError Place :=
  match faultOf path with
  | some e => .error e
  | none =>
    match fs.walk (origin path) path.segments.dropLast with
    | .error e => .error e
    | .ok parent =>
      match path.segments.getLast? with
      | none => .ok parent
      | some last =>
        if last = "" ∨ last = "." then .ok parent
        else if last = ".." then .ok parent.dropLast
        else below parent last

/-! ## Reading -/

/-- What a path leads to. -/
def lookup (fs : Files) (path : Path) : Except FileError FileEntry :=
  match fs.locate path with
  | .error e => .error e
  | .ok place =>
    match fs.find place with
    | some entry => .ok entry
    | none => .error .notFound

/-- Whether something is there. -/
def exists? (fs : Files) (path : Path) : Bool :=
  match fs.lookup path with
  | .ok _ => true
  | .error _ => false

/-- The content of a file. -/
def read (fs : Files) (path : Path) : Except FileError (List UInt8) :=
  match fs.lookup path with
  | .error e => .error e
  | .ok .directory => .error .isDirectory
  | .ok (.file content) => .ok content

/-! ## Writing -/

/-- The place at which a path can be written: a name in a directory that is there, and no
directory itself. A slash at the end asks for a directory. -/
def writable (fs : Files) (path : Path) : Except FileError Place :=
  match faultOf path with
  | some e => .error e
  | none =>
    if path.endsWithSlash then
      let named := (path.segments.reverse.dropWhile (· == "")).reverse
      match fs.walk (origin path) named.dropLast with
      | .error e => .error e
      | .ok _ => .error .isDirectory
    else
      match fs.locate path with
      | .error e => .error e
      | .ok place =>
        match fs.find place with
        | some .directory => .error .isDirectory
        | _ => .ok place

/-- Writes a file, over what it held. -/
def create (fs : Files) (path : Path) (content : List UInt8) : Except FileError Files :=
  match fs.writable path with
  | .error e => .error e
  | .ok place => .ok (fs.put place (.file content))

/-- Overwrites `target` with the content of `source`. The source is opened first and has to be a
regular file. The target is emptied before anything is read, so a copy between two spellings of one
file leaves it empty. -/
def copy (fs : Files) (source target : Path) : Except FileError Files :=
  match fs.lookup source with
  | .error e => .error e
  | .ok .directory => .error .notRegular
  | .ok (.file _) =>
    match fs.create target [] with
    | .error e => .error e
    | .ok emptied =>
      match emptied.read source with
      | .error e => .error e
      | .ok content => emptied.create target content

/-- Makes the directories of a path below a place, as far as no file is in the way. -/
def makeBelow (fs : Files) (place : Place) : List String → Files
  | [] => fs
  | segment :: rest =>
    if segment = "" ∨ segment = "." then makeBelow fs place rest
    else if segment = ".." then makeBelow fs place.dropLast rest
    else
      match below place segment with
      | .error _ => fs
      | .ok next =>
        match fs.find next with
        | some .directory => makeBelow fs next rest
        | some (.file _) => fs
        | none => makeBelow (fs.put next .directory) next rest

/-- Makes a directory and those above it. -/
def makeDirectory (fs : Files) (path : Path) : Files :=
  match faultOf path with
  | some _ => fs
  | none => fs.makeBelow (origin path) path.segments

/-- Removes a file. -/
def remove (fs : Files) (path : Path) : Files :=
  match fs.locate path with
  | .error _ => fs
  | .ok place =>
    match fs.find place with
    | some (.file _) => fs.drop place
    | _ => fs

/-- All files below the working directory with their contents, by path. -/
def contents (fs : Files) : List (String × List UInt8) :=
  let files := fs.entries.filterMap fun e =>
    match e.2 with
    | .file content =>
      if home <+: e.1 then some (String.intercalate "/" (e.1.drop home.length), content) else none
    | .directory => none
  files.mergeSort fun a b => decide (a.1 ≤ b.1)

end Files

end Wharf
