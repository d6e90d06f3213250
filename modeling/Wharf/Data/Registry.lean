/-!
# The registry of items

The table of items by name. A name that is removed and created again stands for a new item.
-/

namespace Wharf

/-- Items by name, each name once. -/
structure Registry (α : Type) where
  entries : List (String × α)

namespace Registry

variable {α : Type}

/-- The registry without items. -/
def empty : Registry α := ⟨[]⟩

/-- The item of a name. -/
def get? (r : Registry α) (name : String) : Option α := r.entries.lookup name

/-- Registers an item under a name that is new. -/
def insert (r : Registry α) (name : String) (item : α) : Registry α :=
  ⟨r.entries ++ [(name, item)]⟩

/-- Forgets a name. -/
def remove (r : Registry α) (name : String) : Registry α :=
  ⟨r.entries.filter fun e => e.1 != name⟩

/-- The number of names. -/
def size (r : Registry α) : Nat := r.entries.length

/-- A name that is new stands for the item it is registered with, and no other name changes. -/
theorem get?_insert (r : Registry α) {name : String} (h : r.get? name = none) (item : α)
    (other : String) :
    (r.insert name item).get? other = if other = name then some item else r.get? other := by
  simp only [get?, insert, List.lookup_append] at h ⊢
  by_cases ho : other = name
  · subst ho
    simp [h]
  · have hb : (other == name) = false := beq_false_of_ne ho
    simp [List.lookup_cons, hb, ho]

/-- A name that is forgotten stands for nothing, and no other name changes. -/
theorem get?_remove (r : Registry α) (name other : String) :
    (r.remove name).get? other = if other = name then none else r.get? other := by
  obtain ⟨entries⟩ := r
  simp only [get?, remove]
  induction entries with
  | nil => simp
  | cons e rest ih =>
    obtain ⟨n, item⟩ := e
    by_cases hn : n = name
    · subst hn
      by_cases ho : other = n
      · simpa [ho] using ih
      · have hb : (other == n) = false := beq_false_of_ne ho
        simpa [List.lookup_cons, hb, ho] using ih
    · by_cases ho : other = n
      · subst ho
        simp [hn]
      · have hb : (other == n) = false := beq_false_of_ne ho
        simpa [hn, List.lookup_cons, hb] using ih

end Registry

end Wharf
