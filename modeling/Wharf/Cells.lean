/-!
# Cells

Values numbered from zero, which are replaced but never taken away. Cells that have not been given
out hold the default value, so a cell can be read without asking whether it is there.

* `Cells.push` gives out the next cell, `Cells.set` and `Cells.update` change one
  (`Cells.get_push`, `Cells.get_set`).
-/

namespace Wharf

/-- A row of cells. -/
structure Cells (α : Type) where
  /-- How many have been given out. -/
  size : Nat
  get : Nat → α

namespace Cells

variable {α : Type}

/-- No cell has been given out. -/
def empty [Inhabited α] : Cells α := ⟨0, fun _ => default⟩

/-- Replaces the value of a cell. -/
def set (c : Cells α) (id : Nat) (value : α) : Cells α :=
  { c with get := fun i => if i = id then value else c.get i }

/-- Changes the value of a cell. -/
def update (c : Cells α) (id : Nat) (f : α → α) : Cells α := c.set id (f (c.get id))

/-- Gives out the next cell. -/
def push (c : Cells α) (value : α) : Cells α := { c.set c.size value with size := c.size + 1 }

/-- The values of all cells that have been given out. -/
def toList (c : Cells α) : List α := (List.range c.size).map c.get

theorem get_set (c : Cells α) (id : Nat) (value : α) (i : Nat) :
    (c.set id value).get i = if i = id then value else c.get i := rfl

@[simp]
theorem get_set_self (c : Cells α) (id : Nat) (value : α) : (c.set id value).get id = value := by
  simp [get_set]

theorem get_push (c : Cells α) (value : α) (i : Nat) :
    (c.push value).get i = if i = c.size then value else c.get i := rfl

@[simp]
theorem size_set (c : Cells α) (id : Nat) (value : α) : (c.set id value).size = c.size := rfl

@[simp]
theorem size_push (c : Cells α) (value : α) : (c.push value).size = c.size + 1 := rfl

end Cells

end Wharf
