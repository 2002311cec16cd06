import Mathlib.Data.List.Infix
import Stencil.Proofs.Failures

/-!
# What runs add

A call of hooks adds records of itself to the journal and writes nothing.  A step
adds to the journal, to the log and to what is written.  Nothing of these is ever
taken back.
-/

namespace Stencil

variable {σ α β : Type}

/-! ## Calls of hooks -/

namespace Host

/-- The host that a call leaves, whether it fails or not. -/
def ofResult : EStateM.Result HookError (Host σ) α → Host σ
  | .ok _ host => host
  | .error _ host => host

/-- Between two hosts nothing was written, and all that was recorded is `P`. -/
structure Extends (P : Record → Prop) (host host' : Host σ) : Prop where
  written : host'.written = host.written
  journal : ∃ more, host'.journal.toList = host.journal.toList ++ more ∧ ∀ r ∈ more, P r

/-- Between two hosts something may have been recorded and written. -/
structure Grows (host host' : Host σ) : Prop where
  written : host.written.toList <+: host'.written.toList
  journal : host.journal.toList <+: host'.journal.toList

variable {P : Record → Prop} {host host' host'' : Host σ}

theorem Extends.refl (host : Host σ) : host.Extends P host :=
  ⟨rfl, [], (List.append_nil _).symm, List.forall_mem_nil _⟩

theorem Extends.trans (h : host.Extends P host') (h' : host'.Extends P host'') :
    host.Extends P host'' := by
  rcases h with ⟨hwritten, more, hjournal, hmore⟩
  rcases h' with ⟨hwritten', more', hjournal', hmore'⟩
  constructor
  · rw [hwritten', hwritten]
  · refine ⟨more ++ more', ?_, List.forall_mem_append.mpr ⟨hmore, hmore'⟩⟩
    rw [hjournal', hjournal, List.append_assoc]

theorem extends_note {record : Record} (h : P record) (host : Host σ) :
    host.Extends P (host.note record) :=
  ⟨rfl, [record], Array.toList_push, List.forall_mem_singleton.mpr h⟩

theorem Grows.refl (host : Host σ) : host.Grows host :=
  ⟨List.prefix_refl _, List.prefix_refl _⟩

theorem Grows.trans (h : host.Grows host') (h' : host'.Grows host'') : host.Grows host'' :=
  ⟨h.written.trans h'.written, h.journal.trans h'.journal⟩

theorem Extends.grows (h : host.Extends P host') : host.Grows host' := by
  rcases h with ⟨hwritten, more, hjournal, _⟩
  constructor
  · rw [hwritten]
  · rw [hjournal]
    exact List.prefix_append _ _

theorem Extends.grows_of_eq {r r' : EStateM.Result HookError (Host σ) α}
    (h : host.Extends P (ofResult r)) (heq : r = r') : host.Grows (ofResult r') := by
  rw [← heq]
  exact h.grows

theorem grows_note (record : Record) (host : Host σ) : host.Grows (host.note record) :=
  (extends_note (P := fun _ => True) trivial host).grows

theorem grows_write (text : String) (host : Host σ) : host.Grows (host.write text) := by
  constructor
  · rw [write, Array.toList_push]
    exact List.prefix_append _ _
  · rw [write, Array.toList_push]
    exact List.prefix_append _ _

end Host

namespace HostM

variable {P : Record → Prop} {host : Host σ}

theorem extends_bind {m : HostM σ α} {k : α → HostM σ β}
    (hm : host.Extends P (Host.ofResult (m host)))
    (hk : ∀ a between, m host = .ok a between →
      between.Extends P (Host.ofResult (k a between))) :
    host.Extends P (Host.ofResult ((m >>= k) host)) := by
  change host.Extends P (Host.ofResult (EStateM.bind m k host))
  rw [EStateM.bind]
  cases h : m host with
  | ok a between =>
      rw [h] at hm
      exact hm.trans (hk a between h)
  | error e between =>
      rw [h] at hm
      exact hm

theorem extends_forM {f : α → HostM σ Unit} {as : List α}
    (h : ∀ a ∈ as, ∀ host, Host.Extends P host (Host.ofResult (f a host))) (host : Host σ) :
    host.Extends P (Host.ofResult (as.forM f host)) := by
  induction as generalizing host with
  | nil => exact .refl host
  | cons a as ih =>
      apply extends_bind (h a List.mem_cons_self host)
      intro _ between _
      exact ih (fun b hb => h b (List.mem_cons_of_mem _ hb)) between

end HostM

theorem Hook.extends_call {P : Record → Prop} {record : Origin → Record}
    (hP : ∀ origin, P (record origin)) (machine : String) (hook : Hook σ α β) (a : α)
    (host : Host σ) :
    host.Extends P (Host.ofResult (hook.call machine record a host)) := by
  have hnote := Host.extends_note (hP hook.origin) host
  rw [call]
  split
  · exact ⟨hnote.written, hnote.journal⟩
  · exact ⟨hnote.written, hnote.journal⟩

namespace Record

/-! What the calls of one announcement, one step and one chunk are recorded as. -/

def TellsOf (event : Event) (r : Record) : Prop :=
  ∃ origin, r = .event origin event

def ChecksStep (context : StepContext) (r : Record) : Prop :=
  ∃ origin, r = .step origin context

def Filters (r : Record) : Prop :=
  ∃ origin text, r = .filter origin text

end Record

namespace Registry

variable (r : Registry σ) (machine : String)

theorem extends_listener (event : Event) (hook : Hook σ Event Unit) (host : Host σ) :
    host.Extends (Record.TellsOf event)
      (Host.ofResult (hook.call machine (.event · event) event host)) :=
  Hook.extends_call (fun origin => ⟨origin, rfl⟩) machine hook event host

theorem extends_emit (event : Event) (host : Host σ) :
    host.Extends (Record.TellsOf event) (Host.ofResult (r.emit machine event host)) :=
  HostM.extends_forM (fun hook _ => extends_listener machine event hook) host

theorem extends_rule (context : StepContext) (rule : StepRule σ) (host : Host σ) :
    host.Extends (Record.ChecksStep context)
      (Host.ofResult ((if context.index % rule.every = 0 then
        rule.hook.call machine (.step · context) context else pure ()) host)) := by
  split
  · exact Hook.extends_call (fun origin => ⟨origin, rfl⟩) machine rule.hook context host
  · exact .refl host

theorem extends_afterStep (context : StepContext) (host : Host σ) :
    host.Extends (Record.ChecksStep context)
      (Host.ofResult (r.afterStep machine context host)) :=
  HostM.extends_forM (fun rule _ => extends_rule machine context rule) host

theorem extends_filterWith (hooks : List (Hook σ String Filtered)) (text : String)
    (host : Host σ) :
    host.Extends Record.Filters (Host.ofResult (filterWith machine hooks text host)) := by
  induction hooks generalizing text host with
  | nil => exact .refl host
  | cons hook hooks ih =>
      apply HostM.extends_bind
      · exact Hook.extends_call (fun origin => ⟨origin, text, rfl⟩) machine hook text host
      · intro filtered between _
        cases filtered with
        | text filtered => exact ih filtered between
        | foreign typeName => exact .refl between

theorem extends_filterOutput (text : String) (host : Host σ) :
    host.Extends Record.Filters (Host.ofResult (r.filterOutput machine text host)) :=
  extends_filterWith machine r.filters text host

end Registry

/-! ## Steps -/

/-- Between two states something may have been logged, recorded and written. -/
structure State.Grows (s s' : State σ) : Prop where
  log : s.log.toList <+: s'.log.toList
  host : s.host.Grows s'.host

variable {c : Setting σ} {macros : MacroTable} {s s' s'' : State σ} {x : Failure}

namespace State

theorem Grows.refl (s : State σ) : s.Grows s :=
  ⟨List.prefix_refl _, .refl _⟩

theorem Grows.trans (h : s.Grows s') (h' : s'.Grows s'') : s.Grows s'' :=
  ⟨h.log.trans h'.log, h.host.trans h'.host⟩

end State

namespace Task

variable {task : Task}

theorem grows_of_steps {new : List Task} (h : Steps c macros task s new s') : s.Grows s' := by
  cases h with
  | @announce event s host h =>
      have hextends := c.registry.extends_emit c.machine event s.host
      exact ⟨List.prefix_refl _, hextends.grows_of_eq h⟩
  | @rules context s host h =>
      have hextends := c.registry.extends_afterStep c.machine context s.host
      exact ⟨List.prefix_refl _, hextends.grows_of_eq h⟩
  | @filter text filtered s host h =>
      have hextends := c.registry.extends_filterOutput c.machine text s.host
      exact ⟨List.prefix_refl _, hextends.grows_of_eq h⟩
  | log i s =>
      constructor
      · rw [State.logged, Array.toList_push]
        exact List.prefix_append _ _
      · exact Host.grows_note _ _
  | deliver h => exact ⟨List.prefix_refl _, Host.grows_write _ _⟩
  | pushScope depth span s => exact ⟨List.prefix_refl _, Host.grows_note _ _⟩
  | item depth array span body index item rest s =>
      exact ⟨List.prefix_refl _, Host.grows_note _ _⟩
  | invoke depth span m text s => exact ⟨List.prefix_refl _, Host.grows_note _ _⟩
  | _ => exact ⟨List.prefix_refl _, Host.Grows.refl _⟩

theorem grows_of_fails (h : Fails c macros task s x s') : s.Grows s' := by
  cases h with
  | @announce event s e host h =>
      have hextends := c.registry.extends_emit c.machine event s.host
      exact ⟨List.prefix_refl _, hextends.grows_of_eq h⟩
  | @rules context s e host h =>
      have hextends := c.registry.extends_afterStep c.machine context s.host
      exact ⟨List.prefix_refl _, hextends.grows_of_eq h⟩
  | @filter text s e host h =>
      have hextends := c.registry.extends_filterOutput c.machine text s.host
      exact ⟨List.prefix_refl _, hextends.grows_of_eq h⟩
  | _ => exact .refl _

end Task

namespace Agenda

theorem grows_of_leads {tasks tasks' : List Task} (h : Leads c macros tasks s tasks' s') :
    s.Grows s' := by
  induction h with
  | refl tasks s => exact .refl s
  | step hstep _ ih => exact (Task.grows_of_steps hstep).trans ih

end Agenda

/-! ## Reports -/

namespace Outcome

/-- Reporting an error changes the host only, and only calls listeners for errors. -/
theorem Reports.state {outcome : Outcome σ} (h : Reports c s x outcome) :
    ∃ host, outcome.state = { s with host := host } ∧
      s.host.Extends (Record.TellsOf (.onError ((x.error s.lastSpan).stamp s.lastIndex))) host := by
  have hextends := c.registry.extends_emit c.machine
    (.onError ((x.error s.lastSpan).stamp s.lastIndex)) s.host
  rcases reports_iff.mp h with ⟨host, hemit, rfl⟩ | ⟨failure, host, hemit, rfl⟩
  · rw [hemit] at hextends
    exact ⟨host, rfl, hextends⟩
  · rw [hemit] at hextends
    exact ⟨host, rfl, hextends⟩

end Outcome

namespace Program

variable {p : Program} {world : σ}

theorem reports_of_raises (h : p.Raises c world x s) :
    Outcome.Reports c s x (p.run c world) := by
  rw [run_of_raises h]
  exact Outcome.reports_failed c s x

theorem grows_run_of_raises (h : p.Raises c world x s) : s.Grows (p.run c world).state := by
  rcases (reports_of_raises h).state with ⟨host, hstate, hextends⟩
  rw [hstate]
  exact ⟨List.prefix_refl _, hextends.grows⟩

end Program

end Stencil
