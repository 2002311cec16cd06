import Stencil.Hook.Registry

/-!
# How hooks are registered

Registrations are made one after the other, and each that is not refused adds its hook to
the registry.  A hook of the lowest priority comes to stand last, and a hook that is
registered once stands among all others.
-/

namespace Stencil

variable {α β σ : Type}

/-! ## One among others -/

/-- `a` stands in the list, and all others are `P`. -/
inductive Sole (P : α → Prop) (a : α) : List α → Prop where
  | here {rest : List α} (hrest : ∀ b ∈ rest, P b) : Sole P a (a :: rest)
  | there {b : α} {rest : List α} (hb : P b) (hrest : Sole P a rest) : Sole P a (b :: rest)

namespace Sole

variable {P Q : α → Prop} {a b : α} {as : List α}

theorem forall_mem (h : Sole P a as) (ha : Q a) (hothers : ∀ b, P b → Q b) :
    ∀ b ∈ as, Q b := by
  induction h with
  | here hrest => exact List.forall_mem_cons.mpr ⟨ha, fun b hb => hothers b (hrest b hb)⟩
  | there hb _ ih => exact List.forall_mem_cons.mpr ⟨hothers _ hb, ih⟩

theorem concat (h : ∀ b ∈ as, P b) (a : α) : Sole P a (as ++ [a]) := by
  induction as with
  | nil => exact .here (List.forall_mem_nil P)
  | cons b as ih =>
      rcases List.forall_mem_cons.mp h with ⟨hb, has⟩
      exact .there hb (ih has)

theorem append (h : Sole P a as) (hb : P b) : Sole P a (as ++ [b]) := by
  induction h with
  | here hrest =>
      exact .here (List.forall_mem_append.mpr ⟨hrest, List.forall_mem_singleton.mpr hb⟩)
  | there hfirst _ ih => exact .there hfirst ih

end Sole

namespace Hook

variable {P : Hook σ α β → Prop} {hook other : Hook σ α β} {hooks : List (Hook σ α β)}

theorem forall_insert (h : ∀ other ∈ hooks, P other) (hhook : P hook) :
    ∀ other ∈ hook.insert hooks, P other := by
  intro other hmem
  rcases List.mem_cons.mp ((insert_perm hook hooks).mem_iff.mp hmem) with rfl | hmem
  · exact hhook
  · exact h other hmem

theorem sole_insert (h : ∀ other ∈ hooks, P other) (hook : Hook σ α β) :
    Sole P hook (hook.insert hooks) := by
  induction hooks with
  | nil => exact .here h
  | cons first hooks ih =>
      rcases List.forall_mem_cons.mp h with ⟨hfirst, hhooks⟩
      rw [insert]
      split
      · exact .here h
      · exact .there hfirst (ih hhooks)

theorem sole_insert_other (h : Sole P hook hooks) (hother : P other) :
    Sole P hook (other.insert hooks) := by
  induction h with
  | here hrest =>
      rw [insert]
      split
      · exact .there hother (.here hrest)
      · exact .here (forall_insert hrest hother)
  | there hfirst hrest ih =>
      rw [insert]
      split
      · exact .there hother (.there hfirst hrest)
      · exact .there hfirst ih

/-- A hook of the lowest priority comes last. -/
theorem insert_last (h : ∀ other ∈ hooks, hook.priority ≤ other.priority) :
    hook.insert hooks = hooks ++ [hook] := by
  induction hooks with
  | nil => rfl
  | cons first hooks ih =>
      rcases List.forall_mem_cons.mp h with ⟨hfirst, hhooks⟩
      rw [insert, if_neg (Int.not_lt.mpr hfirst), ih hhooks]
      rfl

theorem insert_before_last (h : hook.priority < other.priority) (hooks : List (Hook σ α β)) :
    other.insert (hooks ++ [hook]) = other.insert hooks ++ [hook] := by
  induction hooks with
  | nil => exact if_pos h
  | cons first hooks ih =>
      rw [List.cons_append, insert, insert]
      split
      · rfl
      · rw [ih]
        rfl

end Hook

/-! ## Registrations -/

/-- What a registration that is not refused makes of a registry. -/
inductive Registration.Adds : Registration σ → Registry σ → Registry σ → Prop where
  | metadata (m : Metadata) (r : Registry σ) : Adds (.metadata m) r r
  | listener {name : String} {kind : EventKind} (hname : EventKind.ofName? name = some kind)
      (hook : Hook σ Event Unit) (r : Registry σ) :
      Adds (.listener name hook) r (r.addListener kind hook)
  | stepRule (every : Int) (hook : Hook σ StepContext Unit) (r : Registry σ) :
      Adds (.stepRule every hook) r (r.addStepRule ⟨every.toNat, hook⟩)
  | filter (hook : Hook σ String Filtered) (r : Registry σ) :
      Adds (.filter hook) r (r.addFilter hook)

theorem Registry.listeners_addListener (r : Registry σ) (kind : EventKind)
    (hook : Hook σ Event Unit) (other : EventKind) :
    (r.addListener kind hook).listeners other =
      if other = kind then hook.insert (r.listeners other) else r.listeners other :=
  rfl

namespace Services

variable {s s' : Services σ}

theorem adds_of_register {registration : Registration σ} (h : s.register registration = .ok s') :
    registration.Adds s.registry s'.registry := by
  cases registration with
  | metadata m =>
      cases h
      exact .metadata m _
  | listener name hook =>
      rw [register] at h
      cases hname : EventKind.ofName? name with
      | some kind =>
          rw [hname] at h
          cases h
          exact .listener hname hook _
      | none =>
          rw [hname] at h
          cases h
  | stepRule every hook =>
      rw [register] at h
      split at h
      · cases h
      · cases h
        exact .stepRule every hook _
  | filter hook =>
      cases h
      exact .filter hook _

/-- What holds of a registry holds after registrations that each keep it. -/
theorem induct_registerAll {P : Registry σ → Prop} {registrations : List (Registration σ)}
    (h : s.registerAll registrations = (s', none)) (hs : P s.registry)
    (hadds : ∀ registration ∈ registrations, ∀ r r', registration.Adds r r' → P r → P r') :
    P s'.registry := by
  induction registrations generalizing s with
  | nil =>
      cases h
      exact hs
  | cons registration registrations ih =>
      rcases List.forall_mem_cons.mp hadds with ⟨hfirst, hrest⟩
      rw [registerAll] at h
      cases hregister : s.register registration with
      | error refusal =>
          rw [hregister] at h
          cases h
      | ok between =>
          rw [hregister] at h
          exact ih h (hfirst _ _ (adds_of_register hregister) hs) hrest

theorem registerAll_append {first second : List (Registration σ)}
    (h : s.registerAll (first ++ second) = (s', none)) :
    ∃ between, s.registerAll first = (between, none) ∧
      between.registerAll second = (s', none) := by
  induction first generalizing s with
  | nil => exact ⟨s, rfl, h⟩
  | cons registration first ih =>
      rw [List.cons_append, registerAll] at h
      rw [registerAll]
      cases hregister : s.register registration with
      | error refusal =>
          rw [hregister] at h
          cases h
      | ok between =>
          rw [hregister] at h
          exact ih h

end Services

end Stencil
