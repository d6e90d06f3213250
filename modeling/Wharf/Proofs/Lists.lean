import Mathlib.Logic.Basic

/-!
# Lists that grow by what is missing

Ids of nodes and ids of cores are gathered in lists to which an element is added at the end, unless
it is there already.
-/

namespace Wharf

variable {α : Type} [BEq α] [LawfulBEq α]

theorem mem_append_missing {xs : List α} {a x : α} :
    a ∈ (if xs.contains x then xs else xs ++ [x]) ↔ a ∈ xs ∨ a = x := by
  split
  · rename_i hx
    have hx : x ∈ xs := List.contains_iff_mem.1 hx
    constructor
    · exact .inl
    · rintro (ha | rfl)
      · exact ha
      · exact hx
  · rw [List.mem_append, List.mem_singleton]

theorem mem_foldl_append_missing {known new : List α} {a : α} :
    a ∈ new.foldl (fun xs x => if xs.contains x then xs else xs ++ [x]) known ↔
      a ∈ known ∨ a ∈ new := by
  induction new generalizing known with
  | nil => simp
  | cons x rest ih => rw [List.foldl_cons, ih, mem_append_missing, or_assoc, List.mem_cons]

theorem nodup_append_missing {xs : List α} {x : α} (h : xs.Nodup) :
    (if xs.contains x then xs else xs ++ [x]).Nodup := by
  split
  · exact h
  · rename_i hx
    rw [List.contains_iff_mem] at hx
    rw [List.nodup_append]
    refine ⟨h, List.pairwise_singleton _ x, ?_⟩
    rintro a ha _ hsingle rfl
    exact hx (List.mem_singleton.1 hsingle ▸ ha)

theorem nodup_foldl_append_missing {known new : List α} (h : known.Nodup) :
    (new.foldl (fun xs x => if xs.contains x then xs else xs ++ [x]) known).Nodup := by
  induction new generalizing known with
  | nil => exact h
  | cons x rest ih => exact ih (nodup_append_missing h)

end Wharf
