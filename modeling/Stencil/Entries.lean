/-!
# Keyed entries

A list of keys with their values stands for a finite map in which the keys have
an order: that in which they were first given.
-/

namespace Stencil
namespace Entries

/-- A key that has a value already keeps its place. -/
def set {κ α : Type} [DecidableEq κ] (key : κ) (value : α) :
    List (κ × α) → List (κ × α)
  | [] => [(key, value)]
  | (k, v) :: rest =>
      if k = key then (k, value) :: rest else (k, v) :: set key value rest

/-- Sorts entries by the code points of their names. -/
def byName {α : Type} (entries : List (String × α)) : List (String × α) :=
  entries.mergeSort fun a b => !decide (b.1 < a.1)

theorem lookup_cons {κ α : Type} [DecidableEq κ] (key k : κ) (v : α)
    (rest : List (κ × α)) :
    ((k, v) :: rest).lookup key = if key = k then some v else rest.lookup key := by
  rw [List.lookup_cons]
  by_cases h : key = k
  · simp [h]
  · rw [beq_false_of_ne h, if_neg h]

theorem lookup_set {κ α : Type} [DecidableEq κ] (key other : κ) (value : α)
    (entries : List (κ × α)) :
    (set key value entries).lookup other =
      if other = key then some value else entries.lookup other := by
  induction entries with
  | nil => exact lookup_cons other key value []
  | cons entry rest ih =>
      rcases entry with ⟨k, v⟩
      simp only [set]
      split
      · rename_i hk
        subst hk
        rw [lookup_cons, lookup_cons]
        split
        · rfl
        · rfl
      · rename_i hk
        rw [lookup_cons, lookup_cons, ih]
        by_cases hok : other = k
        · have hne : other ≠ key := fun h => hk (hok.symm.trans h)
          rw [if_pos hok, if_neg hne, if_pos hok]
        · rw [if_neg hok, if_neg hok]

end Entries
end Stencil
