import Stencil.Proofs.Growth

/-!
# Transcripts

A transcript lists the calls of hooks between two hosts in their order, each with
what is recorded of it and with what it failed with, if it did.  Whatever is done with
the hooks of a registry makes calls up to the first that fails.
-/

namespace Stencil

variable {σ α β : Type}

/-- A call of a hook: what is recorded of it, and what it failed with if it did. -/
structure Call where
  record : Record
  failure : Option HookError
  deriving DecidableEq

namespace Record

/-- Where the hook was called, if the record is one of a call. -/
def point? : Record → Option HookPoint
  | event _ told => some (.event told.kind)
  | step _ _ => some .stepRule
  | filter _ _ => some .outputFilter
  | write _ => none
  | logged _ => none
  | opened _ => none

def isCall (record : Record) : Bool :=
  record.point?.isSome

end Record

namespace Host

/-- The calls that the journal records. -/
def calls (host : Host σ) : List Record :=
  host.journal.toList.filter Record.isCall

theorem calls_note (record : Record) (host : Host σ) :
    (host.note record).calls =
      host.calls ++ [record].filter Record.isCall := by
  rw [calls, note, Array.toList_push, List.filter_append]
  rfl

theorem calls_note_quiet {record : Record} (h : record.isCall = false) (host : Host σ) :
    (host.note record).calls = host.calls := by
  rw [calls_note, List.filter_cons_of_neg (Bool.eq_false_iff.mp h), List.filter_nil,
    List.append_nil]

theorem calls_write (text : String) (host : Host σ) : (host.write text).calls = host.calls := by
  rw [calls, write, Array.toList_push, List.filter_append,
    show [Record.write text].filter Record.isCall = [] from rfl,
    List.append_nil]
  rfl

end Host

namespace HookError

/-- What a call failed with. -/
def ofResult : EStateM.Result HookError (Host σ) α → Option HookError
  | .ok _ _ => none
  | .error e _ => some e

/-- What a call of an output filter failed with; to give no text is to fail. -/
def ofFiltered (hook : Hook σ String Filtered) :
    EStateM.Result HookError (Host σ) Filtered → Option HookError
  | .ok (.text _) _ => none
  | .ok (.foreign typeName) _ =>
      some (.extension ("output filter from '" ++ hook.origin.owner ++ "' returned " ++
        typeName ++ ", expected str"))
  | .error e _ => some e

end HookError

section Calls

variable (c : Setting σ)

/-- A hook of the registry is called, and leaves a host. -/
inductive Made : Host σ → Call → Host σ → Prop where
  | listener {event : Event} {hook : Hook σ Event Unit}
      (hhook : hook ∈ c.registry.listeners event.kind) (host : Host σ) :
      Made host
        ⟨.event hook.origin event,
          HookError.ofResult (hook.call c.machine (.event · event) event host)⟩
        (.ofResult (hook.call c.machine (.event · event) event host))
  | rule {context : StepContext} {rule : StepRule σ} (hrule : rule ∈ c.registry.stepRules)
      (hdue : context.index % rule.every = 0) (host : Host σ) :
      Made host
        ⟨.step rule.hook.origin context,
          HookError.ofResult (rule.hook.call c.machine (.step · context) context host)⟩
        (.ofResult (rule.hook.call c.machine (.step · context) context host))
  | filter (text : String) {hook : Hook σ String Filtered} (hhook : hook ∈ c.registry.filters)
      (host : Host σ) :
      Made host
        ⟨.filter hook.origin text,
          HookError.ofFiltered hook (hook.call c.machine (.filter · text) text host)⟩
        (.ofResult (hook.call c.machine (.filter · text) text host))

/-- The calls between two hosts.  Between them the machine may log, open frames and
write. -/
inductive Transcript : Host σ → List Call → Host σ → Prop where
  | done (host : Host σ) : Transcript host [] host
  | quiet {host between host' : Host σ} {calls : List Call}
      (hworld : between.world = host.world) (hcalls : between.calls = host.calls)
      (hrest : Transcript between calls host') : Transcript host calls host'
  | call {host between host' : Host σ} {call : Call} {calls : List Call}
      (hcall : Made c host call between) (hrest : Transcript between calls host') :
      Transcript host (call :: calls) host'

end Calls

/-- The listeners of an event are called in their order: all of them, and none fails,
or those up to one that fails. -/
inductive Tells (event : Event) (listeners : List (Hook σ Event Unit)) :
    List Call → Option HookError → Prop where
  | all : Tells event listeners (listeners.map fun hook => ⟨.event hook.origin event, none⟩) none
  | upTo (before after : List (Hook σ Event Unit)) {hook : Hook σ Event Unit} (e : HookError)
      (h : listeners = before ++ hook :: after) :
      Tells event listeners
        ((before.map fun hook => ⟨.event hook.origin event, none⟩) ++
          [⟨.event hook.origin event, some e⟩])
        (some e)

/-- No call failed, and what was raised, if anything, was raised by no hook; or the
last call failed with what was raised, and it alone. -/
inductive Cut : Option Failure → List Call → Prop where
  | returned {x : Option Failure} {calls : List Call}
      (hcalls : ∀ call ∈ calls, call.failure = none)
      (hx : ∀ point e, x ≠ some (.handler point e)) : Cut x calls
  | raised {point : HookPoint} {calls : List Call} {record : Record} (e : HookError)
      (hcalls : ∀ call ∈ calls, call.failure = none) (hpoint : record.point? = some point) :
      Cut (some (.handler point e)) (calls ++ [⟨record, some e⟩])

/-! ## Transcripts -/

variable {c : Setting σ} {host between host' : Host σ} {calls calls' : List Call}

theorem calls_of_call (record : Origin → Record) (hook : Hook σ α β) (machine : String) (a : α)
    (host : Host σ) (h : (record hook.origin).isCall = true) :
    (Host.ofResult (hook.call machine record a host)).calls =
      host.calls ++ [record hook.origin] := by
  have hnote := Host.calls_note (record hook.origin) host
  rw [List.filter_cons_of_pos h, List.filter_nil] at hnote
  rw [Hook.call]
  split
  · exact hnote
  · exact hnote

/-- Every call is recorded. -/
theorem calls_of_made {call : Call} (h : Made c host call host') :
    host'.calls = host.calls ++ [call.record] := by
  cases h with
  | @listener event hook hhook host =>
      exact calls_of_call (.event · event) hook c.machine event host rfl
  | @rule context rule hrule hdue host =>
      exact calls_of_call (.step · context) rule.hook c.machine context host rfl
  | @filter text hook hhook host =>
      exact calls_of_call (.filter · text) hook c.machine text host rfl

theorem calls_of_transcript (h : Transcript c host calls host') :
    host'.calls = host.calls ++ calls.map Call.record := by
  induction h with
  | done host => exact (List.append_nil _).symm
  | quiet hworld hcalls _ ih => rw [ih, hcalls]
  | call hcall _ ih =>
      rw [ih, calls_of_made hcall, List.append_assoc]
      rfl

theorem Transcript.append (h : Transcript c host calls between)
    (h' : Transcript c between calls' host') : Transcript c host (calls ++ calls') host' := by
  induction h with
  | done host => exact h'
  | quiet hworld hcalls _ ih => exact .quiet hworld hcalls (ih h')
  | call hcall _ ih => exact .call hcall (ih h')

theorem Transcript.single {call : Call} (h : Made c host call host') :
    Transcript c host [call] host' :=
  .call h (.done host')

theorem Transcript.rest (hworld : host'.world = host.world) (hcalls : host'.calls = host.calls) :
    Transcript c host [] host' :=
  .quiet hworld hcalls (.done host')

/-! ## Cuts -/

theorem Cut.failure_eq_none {call : Call} (h : Cut none calls) (hcall : call ∈ calls) :
    call.failure = none := by
  cases h with
  | returned hcalls hx => exact hcalls call hcall

theorem Cut.append {x : Option Failure} (h : Cut none calls) (h' : Cut x calls') :
    Cut x (calls ++ calls') := by
  have hcalls : ∀ call ∈ calls, call.failure = none := fun _ => h.failure_eq_none
  cases h' with
  | returned hcalls' hx => exact .returned (List.forall_mem_append.mpr ⟨hcalls, hcalls'⟩) hx
  | raised e hcalls' hpoint =>
      rw [← List.append_assoc]
      exact .raised e (List.forall_mem_append.mpr ⟨hcalls, hcalls'⟩) hpoint

theorem Cut.nil {x : Option Failure} (hx : ∀ point e, x ≠ some (.handler point e)) : Cut x [] :=
  .returned (List.forall_mem_nil _) hx

theorem Cut.single {point : HookPoint} {record : Record} (e : HookError)
    (hpoint : record.point? = some point) : Cut (some (.handler point e)) [⟨record, some e⟩] :=
  .raised e (List.forall_mem_nil _) hpoint

namespace Failure

/-- What a computation over the hooks at a point raised. -/
def ofResult (point : HookPoint) : EStateM.Result HookError (Host σ) α → Option Failure
  | .ok _ _ => none
  | .error e _ => some (.handler point e)

end Failure

/-! ## What the hooks of a registry do -/

namespace HostM

/-- A computation over the hooks makes calls at one point, up to the first that fails. -/
structure Makes (c : Setting σ) (point : HookPoint) (host : Host σ) (calls : List Call)
    (r : EStateM.Result HookError (Host σ) α) : Prop where
  made : Transcript c host calls (Host.ofResult r)
  cut : Cut (Failure.ofResult point r) calls
  placed : ∀ call ∈ calls, call.record.point? = some point

variable {point : HookPoint}

theorem makes_bind {m : HostM σ α} {k : α → HostM σ β} (hm : Makes c point host calls (m host))
    (hk : ∀ a between, m host = .ok a between →
      ∃ calls', Makes c point between calls' (k a between)) :
    ∃ calls', Makes c point host (calls ++ calls') ((m >>= k) host) := by
  change ∃ calls', Makes c point host (calls ++ calls') (EStateM.bind m k host)
  rw [EStateM.bind]
  cases h : m host with
  | ok a between =>
      rw [h] at hm
      rcases hk a between h with ⟨calls', hrest⟩
      exact ⟨calls', hm.made.append hrest.made, hm.cut.append hrest.cut,
        List.forall_mem_append.mpr ⟨hm.placed, hrest.placed⟩⟩
  | error e between =>
      rw [h] at hm
      refine ⟨[], ?_⟩
      rw [List.append_nil]
      exact ⟨hm.made, hm.cut, hm.placed⟩

theorem makes_nothing (a : α) (host : Host σ) :
    Makes c point host [] (EStateM.Result.ok a host) :=
  ⟨.done host, .nil (by simp [Failure.ofResult]), List.forall_mem_nil _⟩

theorem makes_forM {f : α → HostM σ Unit} {as : List α}
    (h : ∀ a ∈ as, ∀ host, ∃ calls, Makes c point host calls (f a host)) (host : Host σ) :
    ∃ calls, Makes c point host calls (as.forM f host) := by
  induction as generalizing host with
  | nil => exact ⟨[], makes_nothing () host⟩
  | cons a as ih =>
      rcases h a List.mem_cons_self host with ⟨calls, hhead⟩
      rcases makes_bind hhead (fun _ between _ =>
        ih (fun b hb => h b (List.mem_cons_of_mem _ hb)) between) with ⟨calls', hmakes⟩
      exact ⟨calls ++ calls', hmakes⟩

/-- One call of a hook that observes. -/
theorem makes_call {record : Record} {r : EStateM.Result HookError (Host σ) Unit}
    (hmade : Made c host ⟨record, HookError.ofResult r⟩ (Host.ofResult r))
    (hpoint : record.point? = some point) :
    Makes c point host [⟨record, HookError.ofResult r⟩] r where
  made := .single hmade
  cut := by
    cases r with
    | ok _ between =>
        exact .returned (List.forall_mem_singleton.mpr rfl) (by simp [Failure.ofResult])
    | error e between => exact .single e hpoint
  placed := List.forall_mem_singleton.mpr hpoint

end HostM

namespace Tells

variable {event : Event} {listeners : List (Hook σ Event Unit)} {failure : Option HookError}

theorem cons (hook : Hook σ Event Unit) (h : Tells event listeners calls failure) :
    Tells event (hook :: listeners) (⟨.event hook.origin event, none⟩ :: calls) failure := by
  cases h with
  | all => exact (.all : Tells event (hook :: listeners) _ none)
  | @upTo before after last e h =>
      exact .upTo (hook :: before) after e (by rw [h, List.cons_append])

theorem first (hook : Hook σ Event Unit) (listeners : List (Hook σ Event Unit)) (e : HookError) :
    Tells event (hook :: listeners) [⟨.event hook.origin event, some e⟩] (some e) :=
  .upTo [] listeners e rfl

theorem records (h : Tells event listeners calls failure) :
    ∀ call ∈ calls, Record.TellsOf event call.record := by
  cases h with
  | all =>
      intro call hcall
      rcases List.mem_map.1 hcall with ⟨hook, _, rfl⟩
      exact ⟨hook.origin, rfl⟩
  | @upTo before after last e h =>
      intro call hcall
      rcases List.mem_append.1 hcall with hbefore | hlast
      · rcases List.mem_map.1 hbefore with ⟨hook, _, rfl⟩
        exact ⟨hook.origin, rfl⟩
      · rcases List.mem_singleton.1 hlast with rfl
        exact ⟨last.origin, rfl⟩

theorem cut (h : Tells event listeners calls failure) :
    Cut (failure.map (Failure.handler (.event event.kind))) calls := by
  cases h with
  | all =>
      apply Cut.returned
      · intro call hcall
        rcases List.mem_map.1 hcall with ⟨hook, _, rfl⟩
        rfl
      · simp
  | @upTo before after last e h =>
      apply Cut.raised e _ rfl
      intro call hcall
      rcases List.mem_map.1 hcall with ⟨hook, _, rfl⟩
      rfl

end Tells

namespace Registry

variable (c : Setting σ)

theorem tells_forM {event : Event} {listeners : List (Hook σ Event Unit)}
    (h : ∀ hook ∈ listeners, hook ∈ c.registry.listeners event.kind) (host : Host σ) :
    let r := listeners.forM (fun hook => hook.call c.machine (.event · event) event) host
    ∃ calls, Tells event listeners calls (HookError.ofResult r) ∧
      Transcript c host calls (Host.ofResult r) := by
  induction listeners generalizing host with
  | nil => exact ⟨[], .all, .done host⟩
  | cons hook listeners ih =>
      intro r
      have hmade : Made c host _ _ := .listener (h hook List.mem_cons_self) host
      have hr : r = EStateM.bind (hook.call c.machine (.event · event) event) (fun _ =>
        listeners.forM fun hook => hook.call c.machine (.event · event) event) host := rfl
      rw [hr, EStateM.bind]
      cases hcall : hook.call c.machine (.event · event) event host with
      | ok _ between =>
          rw [hcall] at hmade
          rcases ih (fun other hother => h other (List.mem_cons_of_mem _ hother)) between with
            ⟨calls, htells, hrest⟩
          exact ⟨_, htells.cons hook, .call hmade hrest⟩
      | error e between =>
          rw [hcall] at hmade
          exact ⟨_, .first hook listeners e, .single hmade⟩

theorem tells_emit (event : Event) (host : Host σ) :
    let r := c.registry.emit c.machine event host
    ∃ calls, Tells event (c.registry.listeners event.kind) calls (HookError.ofResult r) ∧
      Transcript c host calls (Host.ofResult r) :=
  tells_forM c (fun _ hhook => hhook) host

theorem makes_afterStep (context : StepContext) (host : Host σ) :
    ∃ calls, HostM.Makes c .stepRule host calls
      (c.registry.afterStep c.machine context host) := by
  apply HostM.makes_forM
  intro rule hrule host
  split
  · rename_i hdue
    exact ⟨_, HostM.makes_call (.rule hrule hdue host) rfl⟩
  · exact ⟨[], HostM.makes_nothing () host⟩

theorem makes_filterWith {hooks : List (Hook σ String Filtered)}
    (h : ∀ hook ∈ hooks, hook ∈ c.registry.filters) (text : String) (host : Host σ) :
    ∃ calls, HostM.Makes c .outputFilter host calls (filterWith c.machine hooks text host) := by
  induction hooks generalizing text host with
  | nil => exact ⟨[], HostM.makes_nothing text host⟩
  | cons hook hooks ih =>
      have hmade : Made c host _ _ := .filter text (h hook List.mem_cons_self) host
      rw [filterWith]
      change ∃ calls, HostM.Makes c .outputFilter host calls (EStateM.bind _ _ host)
      rw [EStateM.bind]
      cases hcall : hook.call c.machine (.filter · text) text host with
      | ok filtered between =>
          rw [hcall] at hmade
          cases filtered with
          | text filtered =>
              rcases ih (fun other hother => h other (List.mem_cons_of_mem _ hother)) filtered
                between with ⟨calls, hrest⟩
              refine ⟨_, .call hmade hrest.made, ?_, List.forall_mem_cons.mpr ⟨rfl, hrest.placed⟩⟩
              have hfirst : Cut none [⟨.filter hook.origin text, none⟩] :=
                .returned (List.forall_mem_singleton.mpr rfl) (by simp)
              exact hfirst.append hrest.cut
          | foreign typeName =>
              exact ⟨_, .single hmade, .single _ rfl, List.forall_mem_singleton.mpr rfl⟩
      | error e between =>
          rw [hcall] at hmade
          exact ⟨_, .single hmade, .single e rfl, List.forall_mem_singleton.mpr rfl⟩

theorem makes_filterOutput (text : String) (host : Host σ) :
    ∃ calls, HostM.Makes c .outputFilter host calls
      (c.registry.filterOutput c.machine text host) :=
  makes_filterWith c (fun _ hhook => hhook) text host

end Registry

end Stencil
