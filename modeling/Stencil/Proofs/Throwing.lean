import Stencil.Machine.State

/-!
# Where the failures of hooks come from

A call of the hooks of a registry fails only with what one of their handlers
fails with, or because an output filter gives something that is no text.
-/

namespace Stencil

variable {σ α β : Type}

namespace Hook

/-- In some world the handler fails with `e`. -/
def Throws (machine : String) (hook : Hook σ α β) (a : α) (e : HookError) : Prop :=
  ∃ world world', hook.handler machine a world = .error e world'

theorem throws_of_call {machine : String} {record : Origin → Record} {hook : Hook σ α β}
    {a : α} {e : HookError} {host host' : Host σ}
    (h : hook.call machine record a host = .error e host') : hook.Throws machine a e := by
  simp only [call] at h
  split at h
  · cases h
  · rename_i e' world' hhandler
    cases h
    exact ⟨_, _, hhandler⟩

theorem handler_of_call {machine : String} {record : Origin → Record} {hook : Hook σ α β}
    {a : α} {b : β} {host host' : Host σ}
    (h : hook.call machine record a host = .ok b host') :
    ∃ world world', hook.handler machine a world = .ok b world' := by
  simp only [call] at h
  split at h
  · rename_i b' world' hhandler
    cases h
    exact ⟨_, _, hhandler⟩
  · cases h

/-- The filter gives something that is no text, and `e` is the failure for it. -/
def Misfilters (machine : String) (hook : Hook σ String Filtered) (text : String)
    (e : HookError) : Prop :=
  ∃ typeName world world', hook.handler machine text world = .ok (.foreign typeName) world' ∧
    e = .extension ("output filter from '" ++ hook.origin.owner ++ "' returned " ++
      typeName ++ ", expected str")

end Hook

namespace HostM

theorem error_of_bind {m : HostM σ α} {k : α → HostM σ β} {host host' : Host σ}
    {e : HookError} (h : (m >>= k) host = .error e host') :
    m host = .error e host' ∨ ∃ a between, m host = .ok a between ∧
      k a between = .error e host' := by
  change EStateM.bind m k host = _ at h
  rw [EStateM.bind] at h
  split at h
  · rename_i a between hm
    exact .inr ⟨a, between, hm, h⟩
  · rename_i e' host'' hm
    cases h
    exact .inl hm

theorem error_of_forM {f : α → HostM σ Unit} {as : List α} {host host' : Host σ}
    {e : HookError} (h : as.forM f host = .error e host') :
    ∃ a ∈ as, ∃ before, f a before = .error e host' := by
  induction as generalizing host with
  | nil => cases h
  | cons a as ih =>
      rcases error_of_bind h with hhead | ⟨_, between, _, hrest⟩
      · exact ⟨a, List.mem_cons_self, host, hhead⟩
      · rcases ih hrest with ⟨b, hb, before, hbefore⟩
        exact ⟨b, List.mem_cons_of_mem _ hb, before, hbefore⟩

end HostM

namespace Registry

/-- What the hooks of a registry may fail with at a point. -/
def Throws (r : Registry σ) (machine : String) : HookPoint → HookError → Prop
  | .event kind, e => ∃ hook ∈ r.listeners kind, ∃ event, hook.Throws machine event e
  | .stepRule, e => ∃ rule ∈ r.stepRules, ∃ context, rule.hook.Throws machine context e
  | .outputFilter, e =>
      ∃ hook ∈ r.filters, ∃ text, hook.Throws machine text e ∨ hook.Misfilters machine text e

variable {r : Registry σ} {machine : String} {host host' : Host σ} {e : HookError}

theorem throws_of_emit {event : Event} (h : r.emit machine event host = .error e host') :
    r.Throws machine (.event event.kind) e := by
  rcases HostM.error_of_forM h with ⟨hook, hmem, before, hcall⟩
  exact ⟨hook, hmem, event, Hook.throws_of_call hcall⟩

theorem throws_of_afterStep {context : StepContext}
    (h : r.afterStep machine context host = .error e host') : r.Throws machine .stepRule e := by
  rcases HostM.error_of_forM h with ⟨rule, hmem, before, hcall⟩
  split at hcall
  · exact ⟨rule, hmem, context, Hook.throws_of_call hcall⟩
  · cases hcall

theorem throws_of_filterWith {hooks : List (Hook σ String Filtered)} {text : String}
    (h : filterWith machine hooks text host = .error e host') :
    ∃ hook ∈ hooks, ∃ text, hook.Throws machine text e ∨ hook.Misfilters machine text e := by
  induction hooks generalizing text host with
  | nil => cases h
  | cons hook hooks ih =>
      rcases HostM.error_of_bind h with hcall | ⟨filtered, between, hcall, hrest⟩
      · exact ⟨hook, List.mem_cons_self, text, .inl (Hook.throws_of_call hcall)⟩
      · cases filtered with
        | text filtered =>
            rcases ih hrest with ⟨other, hmem, hthrows⟩
            exact ⟨other, List.mem_cons_of_mem _ hmem, hthrows⟩
        | foreign typeName =>
            rcases Hook.handler_of_call hcall with ⟨world, world', hhandler⟩
            cases hrest
            exact ⟨hook, List.mem_cons_self, text,
              .inr ⟨typeName, world, world', hhandler, rfl⟩⟩

theorem throws_of_filterOutput {text : String}
    (h : r.filterOutput machine text host = .error e host') :
    r.Throws machine .outputFilter e :=
  throws_of_filterWith h

end Registry

/-- No handler fails, every filter gives a text, and the sink takes everything. -/
structure Setting.Harmless (c : Setting σ) : Prop where
  hooks : ∀ point e, ¬c.registry.Throws c.machine point e
  sink : ∀ held text, c.sink held text = none

end Stencil
