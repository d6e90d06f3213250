import Wharf.Description

/-!
# The catalog of cores

Cores are the operations that a task may ask for, implementations the concrete ways to carry one
out. Both are only ever added, so an id keeps its meaning in every later catalog.

* `Catalog.register` adds a core, or implementations to a known core, and reports what changed.
* `Catalog.find?`, `Catalog.core?` and `Catalog.implementationsOf` look things up.
-/

namespace Wharf

/-- One way to execute a core. -/
structure Implementation where
  /-- The id of the core. -/
  core : Nat
  /-- The place among the implementations of the core. -/
  index : Nat
  signature : String
  requirements : Description
  deriving DecidableEq

/-- An operation and its implementations, in the order of registration. -/
structure Core where
  id : Nat
  signature : String
  implementations : List Implementation
  deriving DecidableEq

namespace Core

/-- Whether an implementation of this signature is known. -/
def knows (c : Core) (signature : String) : Bool :=
  c.implementations.any fun i => i.signature == signature

/-- Adds one implementation, unless its signature is known. -/
def add (c : Core) (signature : String) (requirements : Description) : Core :=
  if c.knows signature then c
  else { c with
    implementations := c.implementations ++
      [⟨c.id, c.implementations.length, signature, requirements⟩] }

/-- Adds implementations one after the other. -/
def addAll (c : Core) (implementations : List (String × Description)) : Core :=
  implementations.foldl (fun c i => c.add i.1 i.2) c

end Core

/-- All registered cores. The version grows with every change. -/
structure Catalog where
  version : Nat
  cores : List Core
  deriving DecidableEq

/-- What a registration did: the catalog after it and the cores it touched. -/
structure CatalogUpdate where
  catalog : Catalog
  changed : List Nat
  deriving DecidableEq

namespace Catalog

/-- The catalog before any registration. -/
def empty : Catalog := ⟨0, []⟩

instance : Inhabited Catalog := ⟨empty⟩

/-- The number of cores. -/
def size (c : Catalog) : Nat := c.cores.length

/-- The core of an id. -/
def core? (c : Catalog) (id : Nat) : Option Core := c.cores[id]?

/-- The implementations of a core; none for an unknown one. -/
def implementationsOf (c : Catalog) (id : Nat) : List Implementation :=
  match c.core? id with
  | some core => core.implementations
  | none => []

/-- The implementation of a pair of ids. -/
def implementation? (c : Catalog) (core index : Nat) : Option Implementation :=
  (c.implementationsOf core)[index]?

/-- The id of the core of a signature. -/
def find? (c : Catalog) (signature : String) : Option Nat :=
  (c.cores.find? fun core => core.signature == signature).map Core.id

/-- Registers a core with implementations. A known core keeps its implementations and gets those
with new signatures behind them. -/
def register (c : Catalog) (signature : String) (implementations : List (String × Description)) :
    CatalogUpdate :=
  match c.find? signature with
  | some id =>
    match c.core? id with
    | some core =>
      let grown := core.addAll implementations
      if grown.implementations.length = core.implementations.length then ⟨c, []⟩
      else ⟨⟨c.version + 1, c.cores.set id grown⟩, [id]⟩
    | none => ⟨c, []⟩
  | none =>
    let core : Core := ⟨c.size, signature, []⟩
    ⟨⟨c.version + 1, c.cores ++ [core.addAll implementations]⟩, [c.size]⟩

end Catalog

end Wharf
