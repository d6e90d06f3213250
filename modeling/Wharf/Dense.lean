/-!
# Vectors indexed by dense ids

A vector whose ids are the numbers below its length. Reading and writing past the end is refused
(`Dense.get?`, `Dense.put?`); `Dense.push` gives the next id.
-/

namespace Wharf

/-- The values of the ids `0`, `1` and so on. -/
structure Dense (α : Type) where
  values : List α
  deriving DecidableEq

namespace Dense

variable {α : Type}

/-- So many times the same value. -/
def filled (value : α) (count : Nat) : Dense α := ⟨List.replicate count value⟩

/-- The number of ids. -/
def size (d : Dense α) : Nat := d.values.length

/-- The value of an id. -/
def get? (d : Dense α) (id : Nat) : Option α := d.values[id]?

/-- Replaces the value of an id. -/
def put? (d : Dense α) (id : Nat) (value : α) : Option (Dense α) :=
  if id < d.size then some ⟨d.values.set id value⟩ else none

/-- Gives the next id to a value. -/
def push (d : Dense α) (value : α) : Dense α := ⟨d.values ++ [value]⟩

theorem get?_push (d : Dense α) (value : α) (id : Nat) :
    (d.push value).get? id = if id = d.size then some value else d.get? id := by
  simp only [get?, push, size, List.getElem?_append]
  by_cases h : id < d.values.length
  · simp [h, Nat.ne_of_lt h]
  · by_cases he : id = d.values.length
    · simp [he]
    · have : id - d.values.length ≠ 0 := by omega
      simp [h, he, this]

end Dense

end Wharf
