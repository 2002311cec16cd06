import Stencil.Proofs.Growth

/-!
# What hooks leave alone

The hooks that a run calls change the world.  What none of them changes, whether it fails or
not, is after the run as it was before.
-/

namespace Stencil

variable {σ α β ρ : Type}

/-! ## Calls of hooks -/

namespace Hook

/-- The world that a handler leaves, whether it fails or not. -/
def worldOf : EStateM.Result HookError σ β → σ
  | .ok _ world => world
  | .error _ world => world

/-- The world that a call of the hook leaves. -/
def leaves (machine : String) (hook : Hook σ α β) (a : α) (world : σ) : σ :=
  worldOf (hook.handler machine a world)

theorem world_of_call (machine : String) (record : Origin → Record) (hook : Hook σ α β) (a : α)
    (host : Host σ) :
    (Host.ofResult (hook.call machine record a host)).world =
      hook.leaves machine a host.world := by
  rw [call, leaves]
  change (Host.ofResult (match hook.handler machine a host.world with
    | .ok b world => EStateM.Result.ok b { host.note (record hook.origin) with world := world }
    | .error e world => .error e { host.note (record hook.origin) with world := world })).world = _
  cases hook.handler machine a host.world with
  | ok b world => rfl
  | error e world => rfl

end Hook

namespace HostM

variable {f : σ → ρ}

/-- Whatever calls are made and whether they fail or not, `f` is the same of the world that
they leave. -/
def Preserves (f : σ → ρ) (m : HostM σ α) : Prop :=
  ∀ host, f (Host.ofResult (m host)).world = f host.world

theorem Preserves.of_eq {m : HostM σ α} (h : Preserves f m) {host : Host σ}
    {r : EStateM.Result HookError (Host σ) α} (heq : m host = r) :
    f (Host.ofResult r).world = f host.world := by
  rw [← heq]
  exact h host

theorem preserves_pure (a : α) : Preserves f (pure a : HostM σ α) :=
  fun _ => rfl

theorem preserves_throw (e : HookError) : Preserves f (throw e : HostM σ α) :=
  fun _ => rfl

theorem Preserves.bind {m : HostM σ α} {k : α → HostM σ β} (hm : Preserves f m)
    (hk : ∀ a, Preserves f (k a)) : Preserves f (m >>= k) := by
  intro host
  have hhost := hm host
  change f (Host.ofResult (EStateM.bind m k host)).world = _
  rw [EStateM.bind]
  cases h : m host with
  | ok a between =>
      rw [h] at hhost
      exact (hk a between).trans hhost
  | error e between =>
      rw [h] at hhost
      exact hhost

theorem preserves_forM {g : α → HostM σ Unit} {as : List α}
    (h : ∀ a ∈ as, Preserves f (g a)) : Preserves f (as.forM g) := by
  induction as with
  | nil => exact preserves_pure ()
  | cons a as ih =>
      apply (h a List.mem_cons_self).bind
      intro _
      exact ih fun b hb => h b (List.mem_cons_of_mem _ hb)

end HostM

namespace Registry

variable {r : Registry σ} {machine : String} {f : σ → ρ}

theorem preserves_emit {event : Event}
    (h : ∀ hook ∈ r.listeners event.kind, ∀ world,
      f (hook.leaves machine event world) = f world) :
    HostM.Preserves f (r.emit machine event) := by
  apply HostM.preserves_forM
  intro hook hmem host
  rw [Hook.world_of_call]
  exact h hook hmem host.world

theorem preserves_afterStep {context : StepContext}
    (h : ∀ rule ∈ r.stepRules, ∀ world,
      f (rule.hook.leaves machine context world) = f world) :
    HostM.Preserves f (r.afterStep machine context) := by
  apply HostM.preserves_forM
  intro rule hmem
  split
  · intro host
    rw [Hook.world_of_call]
    exact h rule hmem host.world
  · exact HostM.preserves_pure ()

theorem preserves_filterWith {hooks : List (Hook σ String Filtered)}
    (h : ∀ hook ∈ hooks, ∀ text world, f (hook.leaves machine text world) = f world)
    (text : String) : HostM.Preserves f (filterWith machine hooks text) := by
  induction hooks generalizing text with
  | nil => exact HostM.preserves_pure text
  | cons hook hooks ih =>
      rcases List.forall_mem_cons.mp h with ⟨hhook, hhooks⟩
      apply HostM.Preserves.bind
      · intro host
        rw [Hook.world_of_call]
        exact hhook text host.world
      · intro filtered
        cases filtered with
        | text filtered => exact ih hhooks filtered
        | foreign typeName => exact HostM.preserves_throw _

/-- No hook of the registry that is called for the machine changes what `f` is of the world. -/
structure Preserves (f : σ → ρ) (machine : String) (r : Registry σ) : Prop where
  listeners : ∀ kind, ∀ hook ∈ r.listeners kind, ∀ event world,
    f (hook.leaves machine event world) = f world
  stepRules : ∀ rule ∈ r.stepRules, ∀ context world,
    f (rule.hook.leaves machine context world) = f world
  filters : ∀ hook ∈ r.filters, ∀ text world, f (hook.leaves machine text world) = f world

namespace Preserves

theorem emit (h : r.Preserves f machine) (event : Event) :
    HostM.Preserves f (r.emit machine event) :=
  preserves_emit fun hook hmem => h.listeners _ hook hmem event

theorem afterStep (h : r.Preserves f machine) (context : StepContext) :
    HostM.Preserves f (r.afterStep machine context) :=
  preserves_afterStep fun rule hmem => h.stepRules rule hmem context

theorem filterOutput (h : r.Preserves f machine) (text : String) :
    HostM.Preserves f (r.filterOutput machine text) :=
  preserves_filterWith h.filters text

end Preserves

end Registry

/-! ## Runs -/

section Runs

variable {c : Setting σ} {f : σ → ρ} (hc : c.registry.Preserves f c.machine)
include hc

theorem Task.preserved_of_steps {macros : MacroTable} {task : Task} {new : List Task}
    {s s' : State σ} (h : task.Steps c macros s new s') : f s'.host.world = f s.host.world := by
  cases h with
  | announce h => exact (hc.emit _).of_eq h
  | rules h => exact (hc.afterStep _).of_eq h
  | filter h => exact (hc.filterOutput _).of_eq h
  | _ => rfl

theorem Task.preserved_of_fails {macros : MacroTable} {task : Task} {x : Failure}
    {s s' : State σ} (h : task.Fails c macros s x s') : f s'.host.world = f s.host.world := by
  cases h with
  | announce h => exact (hc.emit _).of_eq h
  | rules h => exact (hc.afterStep _).of_eq h
  | filter h => exact (hc.filterOutput _).of_eq h
  | _ => rfl

theorem Agenda.preserved_of_leads {macros : MacroTable} {tasks tasks' : List Task}
    {s s' : State σ} (h : Leads c macros tasks s tasks' s') :
    f s'.host.world = f s.host.world := by
  induction h with
  | refl tasks s => rfl
  | step hstep _ ih => exact ih.trans (Task.preserved_of_steps hc hstep)

theorem Outcome.preserved_of_reports {x : Failure} {s : State σ} {outcome : Outcome σ}
    (h : Reports c s x outcome) : f outcome.state.host.world = f s.host.world := by
  cases h with
  | told _ _ h => exact (hc.emit _).of_eq h
  | replaced _ _ h _ => exact (hc.emit _).of_eq h

/-- Whatever the outcome of a run, what no hook changes is as it was. -/
theorem Program.preserved_run (p : Program) (world : σ) :
    f (p.run c world).state.host.world = f world := by
  rcases completes_or_raises p c world with ⟨s, hreaches⟩ | ⟨x, s, hraises⟩
  · rw [run_of_reaches hreaches]
    exact Agenda.preserved_of_leads hc hreaches
  · rw [Outcome.preserved_of_reports hc (reports_of_raises hraises)]
    rcases hraises with ⟨task, rest, before, hleads, hfails⟩
    exact (Task.preserved_of_fails hc hfails).trans (Agenda.preserved_of_leads hc hleads)

end Runs

end Stencil
