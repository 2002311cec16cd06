import Stencil.Extension.Description
import Stencil.Proofs.Episodes
import Stencil.Proofs.Preserving
import Stencil.Proofs.Registering

/-!
# Figures among other hooks

The statistics extension is registered once, among others that leave its figures alone, and
its filter is the last one.  Whatever the others do, each event, each step and each text on
its way out then changes the figures of the machine it belongs to in one way, and those of
no other machine.
-/

namespace Stencil

variable {α β ρ σ : Type}

/-! ## One call among others -/

/-- If all calls succeed and the others preserve `f`, it changes as by the one. -/
theorem Sole.changes_of_forM {P : α → Prop} {a : α} {as : List α} (h : Sole P a as)
    {g : α → HostM σ Unit} {f : σ → ρ} {change : ρ → ρ}
    (ha : ∀ host, f (Host.ofResult (g a host)).world = change (f host.world))
    (hothers : ∀ b, P b → HostM.Preserves f (g b)) {host host' : Host σ}
    (hok : as.forM g host = .ok () host') : f host'.world = change (f host.world) := by
  induction h generalizing host with
  | here hrest =>
      rcases HostM.ok_of_bind hok with ⟨_, between, hfirst, hlast⟩
      have hpreserved := HostM.preserves_forM fun b hb => hothers b (hrest b hb)
      have hchanged := ha host
      rw [hfirst] at hchanged
      exact (hpreserved.of_eq hlast).trans hchanged
  | @there b rest hb _ ih =>
      rcases HostM.ok_of_bind hok with ⟨_, between, hfirst, hlast⟩
      rw [ih hlast]
      exact congrArg change ((hothers b hb).of_eq hfirst)

/-! ## What the hooks of the extension do -/

namespace World

theorem statsOf_update (world : World) (machine : String) (change : RunStats → RunStats)
    (other : String) :
    (world.setStats machine (change (world.statsOf machine))).statsOf other =
      if other = machine then change (world.statsOf other) else world.statsOf other := by
  rw [statsOf, setStats, Entries.lookup_set]
  by_cases h : other = machine
  · rw [if_pos h, if_pos h, h]
    rfl
  · rw [if_neg h, if_neg h]
    rfl

theorem statsOf_of_eq {world world' : World} (h : world'.stats = world.stats)
    (machine : String) : world'.statsOf machine = world.statsOf machine := by
  rw [statsOf, h]
  rfl

end World

/-- What an event makes of the figures of the machine it happens in. -/
def Event.tally : Event → RunStats → RunStats
  | .programStart _, _ => {}
  | .macroCall _, stats => { stats with macroCalls := stats.macroCalls + 1 }
  | .arrayIter iteration, stats => { stats with items := stats.items + iteration.items.length }
  | .programEnd, stats => stats
  | .onError _, stats => stats

theorem Event.tally_of_ne {event : Event} (h : event.kind ≠ .programStart) (stats : RunStats) :
    (event.tally stats).opcodes = stats.opcodes ∧ (event.tally stats).chars = stats.chars := by
  cases event with
  | programStart p => exact absurd rfl h
  | _ => exact ⟨rfl, rfl⟩

/-- What a text on its way out makes of them. -/
def RunStats.countText (text : String) (stats : RunStats) : RunStats :=
  { stats with chars := stats.chars + text.length }

namespace Statistics

/-- The listener, for all of its events. -/
def listener (owner : String) : Hook World Event Unit :=
  { origin := { owner := owner }, handler := onEvent }

def rule (owner : String) : StepRule World :=
  ⟨1, { origin := { owner := owner }, handler := onStep }⟩

def filter (owner : String) : Hook World String Filtered :=
  { priority := -100, origin := { owner := owner }, handler := onOutput }

section Leaves

variable (owner machine other : String) (world : World)

theorem statsOf_listener (event : Event) :
    ((listener owner).leaves machine event world).statsOf other =
      if other = machine then event.tally (world.statsOf other) else world.statsOf other := by
  cases event with
  | programStart p => exact world.statsOf_update machine (Event.programStart p).tally other
  | macroCall call => exact world.statsOf_update machine (Event.macroCall call).tally other
  | arrayIter iteration =>
      exact world.statsOf_update machine (Event.arrayIter iteration).tally other
  | programEnd => exact (ite_self _).symm
  | onError error => exact (ite_self _).symm

theorem statsOf_rule (context : StepContext) :
    ((rule owner).hook.leaves machine context world).statsOf other =
      if other = machine then (world.statsOf other).countStep context.opcode
      else world.statsOf other :=
  world.statsOf_update machine (RunStats.countStep context.opcode) other

theorem statsOf_filter (text : String) :
    ((filter owner).leaves machine text world).statsOf other =
      if other = machine then (world.statsOf other).countText text else world.statsOf other :=
  world.statsOf_update machine (RunStats.countText text) other

end Leaves

end Statistics

/-! ## Hooks that leave the figures alone -/

/-- Whatever the hook is called with, the table of the figures stays as it is. -/
def Hook.Discreet (hook : Hook World α β) : Prop :=
  ∀ machine a world, (hook.leaves machine a world).stats = world.stats

def Registration.Discreet : Registration World → Prop
  | metadata _ => True
  | listener _ hook => hook.Discreet
  | stepRule _ hook => hook.Discreet
  | filter hook => hook.Discreet

theorem Hook.Discreet.statsOf {hook : Hook World α β} (h : hook.Discreet) (machine : String)
    (a : α) (world : World) (other : String) :
    (hook.leaves machine a world).statsOf other = world.statsOf other :=
  World.statsOf_of_eq (h machine a world) other

namespace HookDescription

theorem attempt_eq (id : HookId) (failure : Option PlannedFailure) (world : World) :
    attempt id failure world = .ok () (world.countCall id) ∨
      ∃ e, attempt id failure world = .error e (world.countCall id) := by
  cases failure with
  | none => exact .inl rfl
  | some planned =>
      change (if planned.first ≤ world.callsOf id then throw planned.error else pure () :
        EStateM HookError World Unit) (world.countCall id) = _ ∨ ∃ e,
        (if planned.first ≤ world.callsOf id then throw planned.error else pure () :
          EStateM HookError World Unit) (world.countCall id) = _
      split
      · exact .inr ⟨planned.error, rfl⟩
      · exact .inl rfl

theorem stats_of_attempt (id : HookId) (failure : Option PlannedFailure)
    (k : Unit → EStateM HookError World β)
    (hk : ∀ world, (Hook.worldOf (k () world)).stats = world.stats) (world : World) :
    (Hook.worldOf ((attempt id failure >>= k) world)).stats = world.stats := by
  change (Hook.worldOf (EStateM.bind (attempt id failure) k world)).stats = _
  rw [EStateM.bind]
  rcases attempt_eq id failure world with hok | ⟨e, herror⟩
  · rw [hok]
    exact hk _
  · rw [herror]
    rfl

/-- Described hooks count their own calls only. -/
theorem discreet_registrations (owner : String) (id : HookId) (description : HookDescription)
    (h : description ≠ .statistics) :
    ∀ registration ∈ description.registrations owner id, registration.Discreet := by
  cases description with
  | metadata m => exact List.forall_mem_singleton.mpr trivial
  | statistics => exact absurd rfl h
  | on event priority tag failure =>
      refine List.forall_mem_singleton.mpr fun machine a world => ?_
      rw [Hook.leaves, ← bind_pure (attempt id failure)]
      exact stats_of_attempt id failure _ (fun _ => rfl) world
  | every n tag failure =>
      refine List.forall_mem_singleton.mpr fun machine a world => ?_
      rw [Hook.leaves, ← bind_pure (attempt id failure)]
      exact stats_of_attempt id failure _ (fun _ => rfl) world
  | filter mode priority tag failure =>
      refine List.forall_mem_singleton.mpr fun machine a world => ?_
      exact stats_of_attempt id failure _ (fun _ => rfl) world

theorem discreet_allRegistrations (owner : String) (installation : Nat)
    {hooks : List HookDescription} (h : ∀ description ∈ hooks, description ≠ .statistics) :
    ∀ registration ∈ allRegistrations owner installation hooks, registration.Discreet := by
  intro registration hmem
  rcases List.mem_flatMap.mp hmem with ⟨⟨description, place⟩, hplace, hregistration⟩
  exact discreet_registrations owner ⟨installation, place⟩ description
    (h description (List.fst_mem_of_mem_zipIdx hplace)) registration hregistration

end HookDescription

/-- No hook of the registry touches the figures, and no filter is of a lower priority than
the one that counts. -/
structure Registry.Discreet (r : Registry World) : Prop where
  listeners : ∀ kind, ∀ hook ∈ r.listeners kind, hook.Discreet
  stepRules : ∀ rule ∈ r.stepRules, rule.hook.Discreet
  filters : ∀ hook ∈ r.filters, hook.Discreet ∧ -100 ≤ hook.priority

/-- The statistics extension is registered once, among discreet hooks, and its filter comes
last. -/
structure Statistics.Among (owner : String) (r : Registry World) : Prop where
  listeners : ∀ kind, kind ≠ .onError →
    Sole Hook.Discreet (listener owner) (r.listeners kind)
  errors : ∀ hook ∈ r.listeners .onError, hook.Discreet
  stepRules : Sole (fun rule => rule.hook.Discreet) (rule owner) r.stepRules
  filters : ∃ others, r.filters = others ++ [filter owner] ∧ ∀ hook ∈ others, hook.Discreet

namespace Registry

variable {r r' : Registry World} {owner : String}

theorem discreet_empty : (empty : Registry World).Discreet where
  listeners := fun _ => List.forall_mem_nil _
  stepRules := List.forall_mem_nil _
  filters := List.forall_mem_nil _

theorem Discreet.adds (h : r.Discreet) {registration : Registration World}
    (hadds : registration.Adds r r') (hdiscreet : registration.Discreet)
    (hpriority : ∀ hook, registration = .filter hook → -100 ≤ hook.priority) : r'.Discreet := by
  cases hadds with
  | metadata m r => exact h
  | @listener name kind hname hook r =>
      refine ⟨fun other => ?_, h.stepRules, h.filters⟩
      rw [listeners_addListener]
      split
      · exact Hook.forall_insert (h.listeners other) hdiscreet
      · exact h.listeners other
  | stepRule every hook r =>
      refine ⟨h.listeners, ?_, h.filters⟩
      exact List.forall_mem_append.mpr ⟨h.stepRules, List.forall_mem_singleton.mpr hdiscreet⟩
  | filter hook r =>
      refine ⟨h.listeners, h.stepRules, ?_⟩
      exact Hook.forall_insert h.filters ⟨hdiscreet, hpriority hook rfl⟩

/-- What registering the extension makes of a registry. -/
theorem Discreet.among (h : r.Discreet) (owner : String) :
    Statistics.Among owner
      (((((r.addListener .programStart (Statistics.listener owner)).addListener .macroCall
        (Statistics.listener owner)).addListener .arrayIter
        (Statistics.listener owner)).addStepRule (Statistics.rule owner)).addFilter
        (Statistics.filter owner) |>.addListener .programEnd (Statistics.listener owner)) where
  listeners := by
    intro kind hkind
    cases kind with
    | onError => exact absurd rfl hkind
    | _ => exact Hook.sole_insert (h.listeners _) _
  errors := h.listeners .onError
  stepRules := Sole.concat h.stepRules _
  filters :=
    ⟨r.filters, Hook.insert_last fun hook hmem => (h.filters hook hmem).2,
      fun hook hmem => (h.filters hook hmem).1⟩

end Registry

namespace Statistics

variable {owner : String} {r r' : Registry World} {machine : String}

theorem Among.adds (h : Among owner r) {registration : Registration World}
    (hadds : registration.Adds r r') (hdiscreet : registration.Discreet)
    (hpriority : ∀ hook, registration = .filter hook → -100 < hook.priority) :
    Among owner r' := by
  cases hadds with
  | metadata m r => exact h
  | @listener name kind hname hook r =>
      constructor
      case listeners =>
        intro other hother
        rw [Registry.listeners_addListener]
        split
        · exact Hook.sole_insert_other (h.listeners other hother) hdiscreet
        · exact h.listeners other hother
      case errors =>
        rw [Registry.listeners_addListener]
        split
        · exact Hook.forall_insert h.errors hdiscreet
        · exact h.errors
      case stepRules => exact h.stepRules
      case filters => exact h.filters
  | stepRule every hook r =>
      exact ⟨h.listeners, h.errors, h.stepRules.append hdiscreet, h.filters⟩
  | filter hook r =>
      rcases h.filters with ⟨others, hfilters, hothers⟩
      refine ⟨h.listeners, h.errors, h.stepRules, hook.insert others, ?_, ?_⟩
      · rw [Registry.addFilter, hfilters]
        exact Hook.insert_before_last (hpriority hook rfl) others
      · exact Hook.forall_insert hothers hdiscreet

/-- Whatever discreet hooks are registered before and after, as long as no filter is put
behind the one that counts. -/
theorem among_of_registerAll {before after : List (Registration World)}
    {services : Services World}
    (hservices : Services.empty.registerAll (before ++ registrations owner ++ after) =
      (services, none))
    (hdiscreet : ∀ registration ∈ before ++ after, registration.Discreet)
    (hbefore : ∀ hook, .filter hook ∈ before → -100 ≤ hook.priority)
    (hafter : ∀ hook, .filter hook ∈ after → -100 < hook.priority) :
    Among owner services.registry := by
  rcases List.forall_mem_append.mp hdiscreet with ⟨hdiscreetBefore, hdiscreetAfter⟩
  rcases Services.registerAll_append hservices with ⟨between, hfirst, hlast⟩
  rcases Services.registerAll_append hfirst with ⟨start, hstart, hregistered⟩
  have hplain : start.registry.Discreet := by
    refine Services.induct_registerAll hstart Registry.discreet_empty ?_
    intro registration hmem r r' hadds hr
    exact hr.adds hadds (hdiscreetBefore _ hmem) fun hook heq => hbefore hook (heq ▸ hmem)
  have hamong : Among owner between.registry := by
    cases hregistered
    exact hplain.among owner
  refine Services.induct_registerAll hlast hamong ?_
  intro registration hmem r r' hadds hr
  exact hr.adds hadds (hdiscreetAfter _ hmem) fun hook heq => hafter hook (heq ▸ hmem)

/-! ## What calls do to the figures -/

namespace Among

variable {event : Event} {context : StepContext} {text : String} {host host' : Host World}
  {e : HookError} (h : Among owner r)
include h

theorem preserves_others {other : String} (hother : other ≠ machine) :
    r.Preserves (fun world => world.statsOf other) machine where
  listeners := by
    intro kind hook hmem event world
    by_cases hkind : kind = .onError
    · rw [hkind] at hmem
      exact (h.errors hook hmem).statsOf machine event world other
    · refine (h.listeners kind hkind).forall_mem (Q := fun hook =>
        (hook.leaves machine event world).statsOf other = world.statsOf other) ?_ ?_ hook hmem
      · exact (statsOf_listener owner machine other world event).trans (if_neg hother)
      · exact fun hook hdiscreet => hdiscreet.statsOf machine event world other
  stepRules := by
    intro rule hmem context world
    refine h.stepRules.forall_mem (Q := fun rule =>
      (rule.hook.leaves machine context world).statsOf other = world.statsOf other) ?_ ?_ rule hmem
    · exact (statsOf_rule owner machine other world context).trans (if_neg hother)
    · exact fun rule hdiscreet => hdiscreet.statsOf machine context world other
  filters := by
    intro hook hmem text world
    rcases h.filters with ⟨others, hfilters, hothers⟩
    rw [hfilters, List.mem_append, List.mem_singleton] at hmem
    rcases hmem with hmem | rfl
    · exact (hothers hook hmem).statsOf machine text world other
    · exact (statsOf_filter owner machine other world text).trans (if_neg hother)

theorem preserves_onError (error : RuntimeError) :
    HostM.Preserves (fun world => world.statsOf machine)
      (r.emit machine (.onError error)) :=
  Registry.preserves_emit fun hook hmem world =>
    (h.errors hook hmem).statsOf machine _ world machine

theorem statsOf_emit (hok : r.emit machine event host = .ok () host') :
    host'.world.statsOf machine = event.tally (host.world.statsOf machine) := by
  by_cases hkind : event.kind = .onError
  · cases event with
    | onError error => exact (h.preserves_onError error).of_eq hok
    | _ => cases hkind
  · refine (h.listeners event.kind hkind).changes_of_forM (f := fun world =>
      world.statsOf machine) ?_ ?_ hok
    · intro host
      rw [Hook.world_of_call, statsOf_listener, if_pos rfl]
    · intro hook hdiscreet host
      rw [Hook.world_of_call]
      exact hdiscreet.statsOf machine event host.world machine

/-- Listeners that fail have counted calls and items at most. -/
theorem counts_of_emit_error (hstart : event.kind ≠ .programStart)
    (hfails : r.emit machine event host = .error e host') :
    (host'.world.statsOf machine).opcodes = (host.world.statsOf machine).opcodes ∧
      (host'.world.statsOf machine).chars = (host.world.statsOf machine).chars := by
  let f : World → List (String × Nat) × Nat := fun world =>
    ((world.statsOf machine).opcodes, (world.statsOf machine).chars)
  have hlistener (world : World) :
      f ((listener owner).leaves machine event world) = f world := by
    have htally := Event.tally_of_ne hstart (world.statsOf machine)
    simp only [f, statsOf_listener, if_pos, htally]
  have hdiscreet (hook : Hook World Event Unit) (hhook : hook.Discreet) (world : World) :
      f (hook.leaves machine event world) = f world := by
    simp only [f, hhook.statsOf machine event world machine]
  have hpreserves : HostM.Preserves f (r.emit machine event) := by
    apply Registry.preserves_emit
    by_cases hkind : event.kind = .onError
    · rw [hkind]
      exact fun hook hmem => hdiscreet hook (h.errors hook hmem)
    · exact (h.listeners event.kind hkind).forall_mem hlistener hdiscreet
  exact Prod.mk.inj (hpreserves.of_eq hfails)

theorem statsOf_afterStep (hok : r.afterStep machine context host = .ok () host') :
    host'.world.statsOf machine =
      (host.world.statsOf machine).countStep context.opcode := by
  refine h.stepRules.changes_of_forM (f := fun world => world.statsOf machine) ?_ ?_ hok
  · intro host
    have hdue : context.index % (rule owner).every = 0 := Nat.mod_one _
    rw [if_pos hdue, Hook.world_of_call, statsOf_rule, if_pos rfl]
  · intro rule hdiscreet
    split
    · intro host
      rw [Hook.world_of_call]
      exact hdiscreet.statsOf machine context host.world machine
    · exact HostM.preserves_pure ()

omit h in
/-- Behind all others, the filter counts the text that is handed on.  Where another one
fails, nothing is counted. -/
theorem statsOf_filterWith (owner machine : String)
    {others : List (Hook World String Filtered)}
    (hothers : ∀ hook ∈ others, hook.Discreet) (text : String) (host : Host World) :
    match Registry.filterWith machine (others ++ [filter owner]) text host with
    | .ok filtered host' =>
        host'.world.statsOf machine = (host.world.statsOf machine).countText filtered
    | .error _ host' => host'.world.statsOf machine = host.world.statsOf machine := by
  induction others generalizing text host with
  | nil =>
      change ((filter owner).leaves machine text host.world).statsOf machine = _
      rw [statsOf_filter, if_pos rfl]
  | cons hook others ih =>
      rcases List.forall_mem_cons.mp hothers with ⟨hhook, hrest⟩
      have hworld := Hook.world_of_call machine (.filter · text) hook text host
      have hsame := hhook.statsOf machine text host.world machine
      rw [← hworld] at hsame
      rw [List.cons_append, Registry.filterWith]
      change match EStateM.bind (hook.call machine (.filter · text) text) _ host with
        | .ok filtered host' =>
            host'.world.statsOf machine = (host.world.statsOf machine).countText filtered
        | .error _ host' => host'.world.statsOf machine = host.world.statsOf machine
      rw [EStateM.bind]
      cases hcall : hook.call machine (.filter · text) text host with
      | error e between =>
          rw [hcall] at hsame
          exact hsame
      | ok given between =>
          rw [hcall] at hsame
          cases given with
          | foreign typeName => exact hsame
          | text given =>
              have hlast := ih hrest given between
              rw [show between.world.statsOf machine = host.world.statsOf machine from hsame]
                at hlast
              exact hlast

theorem statsOf_filterOutput {filtered : String}
    (hok : r.filterOutput machine text host = .ok filtered host') :
    host'.world.statsOf machine = (host.world.statsOf machine).countText filtered := by
  rcases h.filters with ⟨others, hfilters, hothers⟩
  have hfigures := statsOf_filterWith owner machine hothers text host
  rw [← hfilters, ← Registry.filterOutput, hok] at hfigures
  exact hfigures

theorem statsOf_filterOutput_error
    (hfails : r.filterOutput machine text host = .error e host') :
    host'.world.statsOf machine = host.world.statsOf machine := by
  rcases h.filters with ⟨others, hfilters, hothers⟩
  have hfigures := statsOf_filterWith owner machine hothers text host
  rw [← hfilters, ← Registry.filterOutput, hfails] at hfigures
  exact hfigures

end Among

end Statistics

end Stencil
