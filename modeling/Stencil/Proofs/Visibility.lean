import Mathlib.Data.List.Basic
import Stencil.Proofs.Ledger

/-!
# What can be seen from a stack of frames

A name is looked up from the innermost frame outwards.  What is visible is put together the
other way around, from the outermost frame inwards, where a later binding replaces an earlier
one and leaves it in its place.  Both agree on every stack whose frames bind no name twice.
-/

namespace Stencil

namespace Entries

variable {κ α : Type} {key : κ} {value : α} {entries : List (κ × α)}

theorem mem_keys_of_mem (h : (key, value) ∈ entries) : key ∈ entries.map Prod.fst :=
  List.mem_map.mpr ⟨_, h, rfl⟩

variable [DecidableEq κ]

/-- A key that is new is put behind the others. -/
theorem keys_set (key : κ) (value : α) (entries : List (κ × α)) :
    (set key value entries).map Prod.fst =
      if key ∈ entries.map Prod.fst then entries.map Prod.fst
      else entries.map Prod.fst ++ [key] := by
  induction entries with
  | nil => rfl
  | cons entry entries ih =>
      rcases entry with ⟨k, v⟩
      by_cases hk : k = key
      · simp [set, hk]
      · have hkey : key ≠ k := fun h => hk h.symm
        simp only [set, if_neg hk, List.map_cons, ih, List.mem_cons, hkey, false_or]
        split
        · rfl
        · rfl

/-- Where every key has one value, the values that are found are those that are there. -/
theorem lookup_eq_some_iff_mem (h : (entries.map Prod.fst).Nodup) :
    entries.lookup key = some value ↔ (key, value) ∈ entries := by
  induction entries with
  | nil => simp
  | cons entry entries ih =>
      rcases entry with ⟨k, v⟩
      rcases List.nodup_cons.mp h with ⟨hfirst, hrest⟩
      rw [lookup_cons, List.mem_cons]
      by_cases hkey : key = k
      · subst hkey
        have hlater : (key, value) ∉ entries := fun hmem => hfirst (mem_keys_of_mem hmem)
        simp [hlater, eq_comm]
      · simp [hkey, ih hrest]

/-- A key that has no value has no place. -/
theorem lookup_eq_none_of_notMem (h : key ∉ entries.map Prod.fst) :
    entries.lookup key = none := by
  rw [List.lookup_eq_none_iff]
  rintro ⟨k, v⟩ hmem
  have hne : key ≠ k := by
    rintro rfl
    exact h (mem_keys_of_mem hmem)
  exact bne_iff_ne.mpr hne

end Entries

namespace Bindings

def names (bindings : Bindings) : List String :=
  bindings.map Prod.fst

/-- No name is bound twice. -/
def Keyed (bindings : Bindings) : Prop :=
  bindings.names.Nodup

theorem keyed_override {outer : Bindings} (h : outer.Keyed) (inner : Bindings) :
    (override outer inner).Keyed := by
  induction inner generalizing outer with
  | nil => exact h
  | cons binding inner ih => exact ih (Entries.nodup_set h)

/-- By induction on the inner bindings: the first of them is set in the outer ones, and the
others lie over the result. -/
theorem lookup_override {inner : Bindings} (h : inner.Keyed) (outer : Bindings) (name : String) :
    (override outer inner).lookup name = (inner.lookup name <|> outer.lookup name) := by
  induction inner generalizing outer with
  | nil => rfl
  | cons binding inner ih =>
      rcases binding with ⟨first, value⟩
      rcases List.nodup_cons.mp h with ⟨hfirst, hrest⟩
      change (override (Entries.set first value outer) inner).lookup name = _
      rw [ih hrest, Entries.lookup_set, Entries.lookup_cons]
      by_cases hname : name = first
      · subst hname
        simp [Entries.lookup_eq_none_of_notMem hfirst]
      · simp [hname]

/-- The outer names keep their places, and the inner ones come after them in the order in
which they first appear. -/
theorem names_override (outer inner : Bindings) :
    (override outer inner).names =
      outer.names ++ (inner.names.removeAll outer.names).eraseDups := by
  induction inner generalizing outer with
  | nil => exact (List.append_nil _).symm
  | cons binding inner ih =>
      rcases binding with ⟨first, value⟩
      have hset : names (Entries.set first value outer) =
          if first ∈ outer.names then outer.names else outer.names ++ [first] :=
        Entries.keys_set first value outer
      have hnames : names ((first, value) :: inner) = first :: names inner := rfl
      change (override (Entries.set first value outer) inner).names = _
      rw [ih, hset, hnames, List.cons_removeAll]
      by_cases hmem : first ∈ outer.names
      · simp [hmem]
      · have hlater : (names inner).removeAll (names outer ++ [first]) =
            ((names inner).removeAll (names outer)).filter fun name => !name == first := by
          rw [List.removeAll, List.removeAll, List.filter_filter]
          apply List.filter_congr
          intro name _
          by_cases hname : name = first
          · simp [hname]
          · simp [hname]
        simp [hmem, hlater, List.eraseDups_cons]

end Bindings

namespace ScopeStack

/-- No frame binds a name twice. -/
def Keyed (stack : ScopeStack) : Prop :=
  ∀ frame ∈ stack, Bindings.Keyed frame.values

/-- What is visible from the innermost frame is what names mean there. -/
structure Transparent (stack : ScopeStack) : Prop where
  lookup : ∀ name value,
    ScopeStack.lookup name stack = some value ↔ (name, value) ∈ stack.visible
  once : stack.visible.Keyed
  /-- A name stands where it first appears, from the outermost frame inwards. -/
  order : stack.visible.names =
    (stack.reverse.flatMap fun frame => Bindings.names frame.values).eraseDups
  /-- What is bound is what is then found, and no other name changes its meaning. -/
  bind : stack ≠ [] → ∀ name value, ∃ result, ScopeStack.bind name value stack = .ok result ∧
    ScopeStack.lookup name result = some value ∧
    ∀ other, other ≠ name → ScopeStack.lookup other result = ScopeStack.lookup other stack

variable {stack : ScopeStack}

theorem keyed_visible (stack : ScopeStack) : stack.visible.Keyed := by
  induction stack with
  | nil => exact List.nodup_nil
  | cons frame outer ih => exact Bindings.keyed_override ih frame.values

/-- By induction on the stack, from the outermost frame inwards. -/
theorem lookup_visible (h : stack.Keyed) (name : String) :
    stack.visible.lookup name = lookup name stack := by
  induction stack with
  | nil => rfl
  | cons frame outer ih =>
      rcases List.forall_mem_cons.mp h with ⟨hframe, houter⟩
      rw [visible, Bindings.lookup_override hframe, ih houter, lookup]
      cases frame.values.lookup name with
      | none => rfl
      | some value => rfl

theorem names_visible (stack : ScopeStack) :
    stack.visible.names =
      (stack.reverse.flatMap fun frame => Bindings.names frame.values).eraseDups := by
  induction stack with
  | nil => rfl
  | cons frame outer ih =>
      have hsame : ∀ names : List String,
          names.removeAll (Bindings.names (visible outer)) = names.removeAll
            (outer.reverse.flatMap fun frame => Bindings.names frame.values) := by
        intro names
        simp [ih, List.removeAll, List.mem_eraseDups]
      rw [visible, Bindings.names_override, hsame, ih, List.reverse_cons, List.flatMap_append,
        List.flatMap_singleton, List.eraseDups_append]

theorem bind_of_ne_nil (h : stack ≠ []) (name value : String) :
    ∃ result, bind name value stack = .ok result := by
  cases stack with
  | nil => exact absurd rfl h
  | cons frame outer => exact ⟨_, rfl⟩

theorem transparent_of_keyed (h : stack.Keyed) : stack.Transparent where
  lookup := by
    intro name value
    rw [← lookup_visible h]
    exact Entries.lookup_eq_some_iff_mem (keyed_visible stack)
  once := keyed_visible stack
  order := names_visible stack
  bind := by
    intro hstack name value
    rcases bind_of_ne_nil hstack name value with ⟨result, hresult⟩
    refine ⟨result, hresult, ?_, fun other hother => ?_⟩
    · rw [lookup_bind hresult, if_pos rfl]
    · rw [lookup_bind hresult, if_neg hother]

end ScopeStack

end Stencil
