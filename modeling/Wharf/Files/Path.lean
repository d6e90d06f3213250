/-!
# Paths

File names as they are written. Two paths are the same when their parts are: slashes may be
repeated, a slash at the end and dots in the middle count for nothing, but `..` stands for itself
and `./a` is another path than `a`.

* `Path.parts` takes a path apart, `Path.same` compares two by their parts.
* `Path.join` puts a name below a path.
-/

namespace Wharf

/-- A path, as written. -/
structure Path where
  text : String
  deriving DecidableEq, Inhabited

namespace Path

/-- What a path is made of. -/
inductive Part
  /-- The slash in front of an absolute path. -/
  | root
  /-- The dot in front of a relative path. -/
  | here
  /-- Two dots: the directory above. -/
  | up
  /-- A name. -/
  | name (text : String)
  deriving DecidableEq

/-- The pieces between the slashes; there is one more of them than of slashes. -/
def segmentsOf : List Char → List (List Char)
  | [] => [[]]
  | c :: rest =>
    if c = '/' then [] :: segmentsOf rest
    else match segmentsOf rest with
      | [] => [[c]]
      | segment :: more => (c :: segment) :: more

/-- The pieces of the path between the slashes. -/
def segments (p : Path) : List String := (segmentsOf p.text.toList).map String.ofList

/-- Whether the path starts at the root. -/
def isAbsolute (p : Path) : Bool := p.text.toList.head? == some '/'

/-- Whether the path ends with a slash. -/
def endsWithSlash (p : Path) : Bool := p.text.toList.getLast? == some '/'

/-- The parts that the pieces behind the first one give. -/
def partsOf (segments : List String) : List Part :=
  segments.filterMap fun segment =>
    if segment = "" ∨ segment = "." then none
    else if segment = ".." then some .up
    else some (.name segment)

/-- The parts of a path. -/
def parts (p : Path) : List Part :=
  if p.isAbsolute then .root :: partsOf p.segments
  else if p.segments.head? = some "." then .here :: partsOf p.segments
  else partsOf p.segments

/-- Whether two paths have the same parts. -/
def same (p q : Path) : Bool := decide (p.parts = q.parts)

theorem same_iff {p q : Path} : p.same q = true ↔ p.parts = q.parts := decide_eq_true_iff

@[simp]
theorem same_refl (p : Path) : p.same p = true := same_iff.mpr rfl

theorem same_symm {p q : Path} (h : p.same q = true) : q.same p = true :=
  same_iff.mpr (same_iff.mp h).symm

theorem same_trans {p q r : Path} (h : p.same q = true) (h' : q.same r = true) :
    p.same r = true :=
  same_iff.mpr ((same_iff.mp h).trans (same_iff.mp h'))

/-- The path of a name below `p`. An absolute name stands for itself. -/
def join (p : Path) (name : String) : Path :=
  if name.toList.head? = some '/' then ⟨name⟩
  else if p.text.isEmpty || p.endsWithSlash then ⟨p.text ++ name⟩
  else ⟨p.text ++ "/" ++ name⟩

end Path

end Wharf
