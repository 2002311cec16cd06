import Stencil.Proofs.Observing
import Stencil.Proofs.Preserving
import Stencil.Proofs.Registering

/-!
# Hooks by their priorities

Hooks are registered one by one, by any number of extensions, and some registrations are
refused.  The listeners of an event are then those that were accepted for it, by descending
priority and, where priorities are equal, in the order of registration; so are the filters.
Only one list is ordered in this way.  So it does not matter in which order hooks of
different priorities are registered.
-/

namespace Stencil

variable {α β σ : Type}

/-! ## Stable order -/

namespace Hook

/-- The hooks of one priority, in their order. -/
def ofPriority (q : Int) (hooks : List (Hook σ α β)) : List (Hook σ α β) :=
  hooks.filter fun hook => hook.priority = q

/-- The registered hooks by descending priority, and those of one priority as they were
registered. -/
structure StablySorted (registered hooks : List (Hook σ α β)) : Prop where
  perm : hooks.Perm registered
  ordered : Ordered hooks
  stable : ∀ q, ofPriority q hooks = ofPriority q registered

variable {hook other : Hook σ α β} {hooks others registered : List (Hook σ α β)} {q : Int}

theorem mem_ofPriority : hook ∈ ofPriority q hooks ↔ hook ∈ hooks ∧ hook.priority = q := by
  rw [ofPriority, List.mem_filter, decide_eq_true_iff]

theorem ofPriority_cons_self (hook : Hook σ α β) (hooks : List (Hook σ α β)) :
    ofPriority hook.priority (hook :: hooks) = hook :: ofPriority hook.priority hooks :=
  List.filter_cons_of_pos (decide_eq_true rfl)

theorem ofPriority_cons_ne (h : hook.priority ≠ q) (hooks : List (Hook σ α β)) :
    ofPriority q (hook :: hooks) = ofPriority q hooks :=
  List.filter_cons_of_neg (by simpa using h)

theorem ofPriority_append (hooks others : List (Hook σ α β)) (q : Int) :
    ofPriority q (hooks ++ others) = ofPriority q hooks ++ ofPriority q others :=
  List.filter_append _ _

/-- No hook has a higher priority than the first one. -/
theorem Ordered.le_head (h : Ordered (hook :: hooks)) (hother : other ∈ hook :: hooks) :
    other.priority ≤ hook.priority := by
  rcases List.mem_cons.mp hother with rfl | hother
  · exact Int.le_refl _
  · exact (List.pairwise_cons.mp h).1 other hother

/-- Among the hooks of its priority, a hook that is inserted is the last. -/
theorem ofPriority_insert (h : Ordered hooks) (hook : Hook σ α β) (q : Int) :
    ofPriority q (hook.insert hooks) = ofPriority q hooks ++ ofPriority q [hook] := by
  induction hooks with
  | nil => rfl
  | cons first hooks ih =>
      rw [insert]
      split
      · rename_i hlt
        by_cases hq : hook.priority = q
        · -- all that stand behind have lower priorities
          have hnone : ofPriority q (first :: hooks) = [] := by
            rw [List.eq_nil_iff_forall_not_mem]
            intro other hother
            rcases mem_ofPriority.mp hother with ⟨hmem, heq⟩
            have hle := h.le_head hmem
            omega
          subst hq
          rw [hnone, ofPriority_cons_self, hnone, ofPriority_cons_self]
          rfl
        · rw [ofPriority_cons_ne hq, ofPriority_cons_ne hq]
          exact (List.append_nil _).symm
      · have hrest := ih (List.pairwise_cons.mp h).2
        by_cases hq : first.priority = q
        · subst hq
          rw [ofPriority_cons_self, ofPriority_cons_self, hrest]
          rfl
        · rw [ofPriority_cons_ne hq, ofPriority_cons_ne hq, hrest]

theorem StablySorted.insert (h : StablySorted registered hooks) (hook : Hook σ α β) :
    StablySorted (registered ++ [hook]) (hook.insert hooks) where
  perm := (insert_perm hook hooks).trans
    ((h.perm.cons hook).trans (List.perm_append_singleton hook registered).symm)
  ordered := ordered_insert hook h.ordered
  stable := by
    intro q
    rw [ofPriority_insert h.ordered, ofPriority_append, h.stable]

theorem stablySorted_nil : StablySorted ([] : List (Hook σ α β)) [] :=
  ⟨.nil, .nil, fun _ => rfl⟩

theorem mem_iff_of_ofPriority_eq (h : ∀ q, ofPriority q hooks = ofPriority q others) :
    hook ∈ hooks ↔ hook ∈ others := by
  have hiff : hook ∈ ofPriority hook.priority hooks ↔
      hook ∈ ofPriority hook.priority others := by rw [h]
  simpa [mem_ofPriority] using hiff

/-- Ordered hooks are known from those of each priority. -/
theorem eq_of_ofPriority_eq (h : Ordered hooks) (h' : Ordered others)
    (heq : ∀ q, ofPriority q hooks = ofPriority q others) : hooks = others := by
  induction hooks generalizing others with
  | nil =>
      rw [eq_comm, List.eq_nil_iff_forall_not_mem]
      exact fun hook hhook => List.not_mem_nil ((mem_iff_of_ofPriority_eq heq).mpr hhook)
  | cons hook hooks ih =>
      have hmem := (mem_iff_of_ofPriority_eq heq).mp (List.mem_cons_self (a := hook))
      cases others with
      | nil => exact absurd hmem List.not_mem_nil
      | cons other others =>
          have hmem' := (mem_iff_of_ofPriority_eq heq).mpr (List.mem_cons_self (a := other))
          have hpriority : hook.priority = other.priority :=
            Int.le_antisymm (h'.le_head hmem) (h.le_head hmem')
          have hfirst := heq hook.priority
          rw [ofPriority_cons_self, hpriority, ofPriority_cons_self] at hfirst
          rcases List.cons.inj hfirst with ⟨rfl, _⟩
          have hrest : ∀ q, ofPriority q hooks = ofPriority q others := by
            intro q
            have hq := heq q
            rw [ofPriority, ofPriority, List.filter_cons, List.filter_cons] at hq
            split at hq
            · exact (List.cons.inj hq).2
            · exact hq
          rw [ih (List.pairwise_cons.mp h).2 (List.pairwise_cons.mp h').2 hrest]

theorem StablySorted.unique {registered' : List (Hook σ α β)}
    (h : StablySorted registered hooks) (h' : StablySorted registered' others)
    (heq : ∀ q, ofPriority q registered = ofPriority q registered') : hooks = others :=
  eq_of_ofPriority_eq h.ordered h'.ordered fun q => by rw [h.stable, h'.stable, heq]

end Hook

/-! ## Registrations -/

namespace Registration

/-- The listener that a registration adds to those of an event, if it adds one. -/
def listener? (kind : EventKind) : Registration σ → Option (Hook σ Event Unit)
  | listener name hook => if EventKind.ofName? name = some kind then some hook else none
  | _ => none

def filter? : Registration σ → Option (Hook σ String Filtered)
  | filter hook => some hook
  | _ => none

/-- The step rule that is added, unless its period is refused. -/
def rule? : Registration σ → Option (StepRule σ)
  | stepRule every hook => if every < 1 then none else some ⟨every.toNat, hook⟩
  | _ => none

/-- Step rules and metadata have no priority. -/
def priority? : Registration σ → Option Int
  | listener _ hook => some hook.priority
  | filter hook => some hook.priority
  | _ => none

/-- No event has the name, or the period is too small. -/
inductive Refused : Registration σ → Refusal → Prop where
  | unknownEvent {name : String} (hname : ∀ kind : EventKind, kind.name ≠ name)
      (hook : Hook σ Event Unit) : Refused (.listener name hook) (.unknownEvent name)
  | badPeriod {every : Int} (hevery : every < 1) (hook : Hook σ StepContext Unit) :
      Refused (.stepRule every hook) (.badPeriod every)

/-- The same registrations, those of equal priority in the same order. -/
structure Reorders (registrations others : List (Registration σ)) : Prop where
  perm : others.Perm registrations
  stable : ∀ q, others.filter (fun r => r.priority? = some q) =
    registrations.filter fun r => r.priority? = some q

variable {registrations others : List (Registration σ)}

/-- The hooks of one priority that registrations give are given by the registrations of that
priority. -/
theorem ofPriority_filterMap {g : Registration σ → Option (Hook σ α β)}
    (hg : ∀ r hook, g r = some hook → r.priority? = some hook.priority) (q : Int)
    (registrations : List (Registration σ)) :
    Hook.ofPriority q (registrations.filterMap g) =
      (registrations.filter fun r => r.priority? = some q).filterMap g := by
  induction registrations with
  | nil => rfl
  | cons r registrations ih =>
      rw [List.filterMap_cons, List.filter_cons]
      cases hr : g r with
      | none =>
          dsimp only
          rw [ih]
          split
          · rw [List.filterMap_cons, hr]
          · rfl
      | some hook =>
          have hpriority := hg r hook hr
          dsimp only
          by_cases hq : hook.priority = q
          · subst hq
            rw [Hook.ofPriority_cons_self, ih, if_pos (decide_eq_true hpriority),
              List.filterMap_cons, hr]
          · rw [Hook.ofPriority_cons_ne hq, ih, if_neg]
            rw [hpriority]
            simpa using hq

theorem Reorders.ofPriority_filterMap (h : Reorders registrations others)
    {g : Registration σ → Option (Hook σ α β)}
    (hg : ∀ r hook, g r = some hook → r.priority? = some hook.priority) (q : Int) :
    Hook.ofPriority q (others.filterMap g) = Hook.ofPriority q (registrations.filterMap g) := by
  rw [Registration.ofPriority_filterMap hg, Registration.ofPriority_filterMap hg, h.stable]

theorem priority?_of_listener? {kind : EventKind} (r : Registration σ)
    (hook : Hook σ Event Unit) (h : r.listener? kind = some hook) :
    r.priority? = some hook.priority := by
  cases r with
  | listener name other =>
      rw [listener?] at h
      split at h
      · cases h
        rfl
      · cases h
  | _ => cases h

theorem priority?_of_filter? (r : Registration σ) (hook : Hook σ String Filtered)
    (h : r.filter? = some hook) : r.priority? = some hook.priority := by
  cases r with
  | filter other =>
      cases h
      rfl
  | _ => cases h

end Registration

theorem EventKind.ofName?_eq_none_iff {name : String} :
    EventKind.ofName? name = none ↔ ∀ kind : EventKind, kind.name ≠ name := by
  rw [EventKind.ofName?, List.find?_eq_none]
  constructor
  · intro h kind
    simpa using h kind (EventKind.mem_all kind)
  · intro h kind _
    simpa using h kind

/-! ## Registries -/

/-- The listeners and the filters are the accepted ones in stable order, and the step rules
stand as they were registered. -/
structure Registry.Collects (r : Registry σ) (registrations : List (Registration σ)) :
    Prop where
  listeners : ∀ kind, Hook.StablySorted (registrations.filterMap (Registration.listener? kind))
    (r.listeners kind)
  filters : Hook.StablySorted (registrations.filterMap Registration.filter?) r.filters
  stepRules : r.stepRules = registrations.filterMap Registration.rule?

namespace Services

variable {s : Services σ} {registration : Registration σ}
  {registrations batch : List (Registration σ)}

/-- The services after a registration, which changes nothing if it is refused. -/
def attempt (s : Services σ) (registration : Registration σ) : Services σ :=
  match s.register registration with
  | .ok s' => s'
  | .error _ => s

/-- Makes registrations in order, whichever of them are refused. -/
def attemptAll (s : Services σ) (registrations : List (Registration σ)) : Services σ :=
  registrations.foldl attempt s

theorem register_eq_error_iff {refusal : Refusal} :
    s.register registration = .error refusal ↔ registration.Refused refusal := by
  constructor
  · intro h
    cases registration with
    | metadata m => cases h
    | filter hook => cases h
    | listener name hook =>
        rw [register] at h
        cases hname : EventKind.ofName? name with
        | some kind =>
            rw [hname] at h
            cases h
        | none =>
            rw [hname] at h
            cases h
            exact .unknownEvent (EventKind.ofName?_eq_none_iff.mp hname) hook
    | stepRule every hook =>
        rw [register] at h
        split at h
        · rename_i hevery
          cases h
          exact .badPeriod hevery hook
        · cases h
  · intro h
    cases h with
    | unknownEvent hname hook => rw [register, EventKind.ofName?_eq_none_iff.mpr hname]
    | badPeriod hevery hook => rw [register, if_pos hevery]

theorem filterMap_concat_none {g : Registration σ → Option β} (h : g registration = none) :
    (registrations ++ [registration]).filterMap g = registrations.filterMap g := by
  rw [List.filterMap_append, List.filterMap_cons, h]
  exact List.append_nil _

theorem filterMap_concat_some {g : Registration σ → Option β} {b : β}
    (h : g registration = some b) :
    (registrations ++ [registration]).filterMap g = registrations.filterMap g ++ [b] := by
  rw [List.filterMap_append, List.filterMap_cons, h]
  rfl

/-- A registration that adds to none of the lists. -/
theorem collects_skip {r : Registry σ} (h : r.Collects registrations)
    (hlistener : ∀ kind, registration.listener? kind = none)
    (hfilter : registration.filter? = none) (hrule : registration.rule? = none) :
    r.Collects (registrations ++ [registration]) := by
  constructor
  · intro kind
    rw [filterMap_concat_none (hlistener kind)]
    exact h.listeners kind
  · rw [filterMap_concat_none hfilter]
    exact h.filters
  · rw [filterMap_concat_none hrule]
    exact h.stepRules

theorem collects_addListener {r : Registry σ} (h : r.Collects registrations) {name : String}
    {kind : EventKind} (hname : EventKind.ofName? name = some kind) (hook : Hook σ Event Unit) :
    (r.addListener kind hook).Collects (registrations ++ [.listener name hook]) := by
  constructor
  · intro other
    rw [Registry.listeners_addListener]
    by_cases hkind : other = kind
    · have hlistener : (Registration.listener name hook).listener? other = some hook := by
        rw [Registration.listener?, hname, if_pos (congrArg some hkind.symm)]
      rw [filterMap_concat_some hlistener, if_pos hkind]
      exact (h.listeners other).insert hook
    · have hlistener : (Registration.listener name hook).listener? other = none := by
        rw [Registration.listener?, hname, if_neg fun heq => hkind (Option.some.inj heq).symm]
      rw [filterMap_concat_none hlistener, if_neg hkind]
      exact h.listeners other
  · rw [filterMap_concat_none rfl]
    exact h.filters
  · rw [filterMap_concat_none rfl]
    exact h.stepRules

theorem collects_addStepRule {r : Registry σ} (h : r.Collects registrations) {every : Int}
    (hevery : ¬every < 1) (hook : Hook σ StepContext Unit) :
    (r.addStepRule ⟨every.toNat, hook⟩).Collects (registrations ++ [.stepRule every hook]) := by
  constructor
  · intro kind
    rw [filterMap_concat_none rfl]
    exact h.listeners kind
  · rw [filterMap_concat_none rfl]
    exact h.filters
  · rw [filterMap_concat_some (if_neg hevery)]
    exact congrArg (· ++ [⟨every.toNat, hook⟩]) h.stepRules

theorem collects_addFilter {r : Registry σ} (h : r.Collects registrations)
    (hook : Hook σ String Filtered) :
    (r.addFilter hook).Collects (registrations ++ [.filter hook]) := by
  constructor
  · intro kind
    rw [filterMap_concat_none rfl]
    exact h.listeners kind
  · have hfilter : (Registration.filter hook).filter? = some hook := rfl
    rw [filterMap_concat_some hfilter]
    exact h.filters.insert hook
  · rw [filterMap_concat_none rfl]
    exact h.stepRules

theorem collects_attempt (h : s.registry.Collects registrations)
    (registration : Registration σ) :
    (s.attempt registration).registry.Collects (registrations ++ [registration]) := by
  cases registration with
  | metadata m => exact collects_skip h (fun _ => rfl) rfl rfl
  | filter hook => exact collects_addFilter h hook
  | listener name hook =>
      rw [attempt, register]
      cases hname : EventKind.ofName? name with
      | some kind => exact collects_addListener h hname hook
      | none =>
          refine collects_skip h (fun kind => ?_) rfl rfl
          rw [Registration.listener?, hname]
          rfl
  | stepRule every hook =>
      rw [attempt, register]
      by_cases hevery : every < 1
      · rw [if_pos hevery]
        exact collects_skip h (fun _ => rfl) rfl (if_pos hevery)
      · rw [if_neg hevery]
        exact collects_addStepRule h hevery hook

theorem collects_attemptAll (h : s.registry.Collects registrations)
    (batch : List (Registration σ)) :
    (s.attemptAll batch).registry.Collects (registrations ++ batch) := by
  induction batch generalizing s registrations with
  | nil => rwa [List.append_nil]
  | cons registration batch ih =>
      have hall := ih (collects_attempt h registration)
      rwa [List.append_assoc] at hall

theorem collects_empty : (empty : Services σ).registry.Collects [] :=
  ⟨fun _ => Hook.stablySorted_nil, Hook.stablySorted_nil, rfl⟩

/-- Where registrations are made up to the first that is refused, those before it are made. -/
theorem registerAll_eq_attemptAll (s : Services σ) (batch : List (Registration σ)) :
    ((∀ r ∈ batch, ∀ refusal, ¬r.Refused refusal) ∧
      s.registerAll batch = (s.attemptAll batch, none)) ∨
    ∃ before registration after refusal, batch = before ++ registration :: after ∧
      (∀ r ∈ before, ∀ other, ¬r.Refused other) ∧ registration.Refused refusal ∧
      s.registerAll batch = (s.attemptAll before, some refusal) := by
  induction batch generalizing s with
  | nil => exact .inl ⟨List.forall_mem_nil _, rfl⟩
  | cons registration batch ih =>
      rw [registerAll]
      cases hregister : s.register registration with
      | error refusal =>
          exact .inr ⟨[], registration, batch, refusal, rfl, List.forall_mem_nil _,
            register_eq_error_iff.mp hregister, rfl⟩
      | ok between =>
          have haccepted : ∀ refusal, ¬registration.Refused refusal := by
            intro refusal hrefused
            rw [register_eq_error_iff.mpr hrefused] at hregister
            cases hregister
          have hattempt : s.attempt registration = between := by rw [attempt, hregister]
          rcases ih between with ⟨hall, heq⟩ | ⟨before, last, after, refusal, rfl, hall, hlast, heq⟩
          · refine .inl ⟨List.forall_mem_cons.mpr ⟨haccepted, hall⟩, ?_⟩
            rw [attemptAll, List.foldl_cons, hattempt]
            exact heq
          · refine .inr ⟨registration :: before, last, after, refusal, rfl,
              List.forall_mem_cons.mpr ⟨haccepted, hall⟩, hlast, ?_⟩
            rw [attemptAll, List.foldl_cons, hattempt]
            exact heq

end Services

/-! ## Calls in order -/

namespace Hook

/-- The hooks are called in their order, each in the world that the one before it left. -/
structure Called (machine : String) (record : Origin → Record) (a : α) (hooks : List (Hook σ α β))
    (host host' : Host σ) : Prop where
  world : host'.world = hooks.foldl (fun world hook => hook.leaves machine a world) host.world
  journal : host'.journal.toList = host.journal.toList ++ hooks.map fun hook => record hook.origin
  written : host'.written = host.written

variable {machine : String} {record : Origin → Record} {a : α} {hook : Hook σ α β}
  {hooks : List (Hook σ α β)} {host between host' : Host σ}

theorem called_nil (machine : String) (record : Origin → Record) (a : α) (host : Host σ) :
    Called machine record a ([] : List (Hook σ α β)) host host :=
  ⟨rfl, (List.append_nil _).symm, rfl⟩

theorem called_cons (h : Host.ofResult (hook.call machine record a host) = between)
    (hrest : Called machine record a hooks between host') :
    Called machine record a (hook :: hooks) host host' := by
  have hworld := world_of_call machine record hook a host
  have hhost : between.journal = host.journal.push (record hook.origin) ∧
      between.written = host.written := by
    rw [← h, call]
    split
    · exact ⟨rfl, rfl⟩
    · exact ⟨rfl, rfl⟩
  rw [h] at hworld
  constructor
  · rw [hrest.world, hworld, List.foldl_cons]
  · rw [hrest.journal, hhost.1, Array.toList_push, List.append_assoc, List.map_cons]
    rfl
  · rw [hrest.written, hhost.2]

/-- The hooks are called in their order: all of them, or those up to one that fails. -/
inductive CalledAll (machine : String) (record : Origin → Record) (a : α)
    (hooks : List (Hook σ α Unit)) (host : Host σ) :
    EStateM.Result HookError (Host σ) Unit → Prop where
  | all {host' : Host σ} (h : Called machine record a hooks host host') :
      CalledAll machine record a hooks host (.ok () host')
  | upTo (before after : List (Hook σ α Unit)) {last : Hook σ α Unit} {between host' : Host σ}
      {e : HookError} (hsplit : hooks = before ++ last :: after)
      (hbefore : Called machine record a before host between)
      (hlast : last.call machine record a between = .error e host') :
      CalledAll machine record a hooks host (.error e host')

theorem calledAll_forM (machine : String) (record : Origin → Record) (a : α)
    (hooks : List (Hook σ α Unit)) (host : Host σ) :
    CalledAll machine record a hooks host
      (hooks.forM (fun hook => hook.call machine record a) host) := by
  induction hooks generalizing host with
  | nil => exact .all (called_nil machine record a host)
  | cons hook hooks ih =>
      change CalledAll machine record a (hook :: hooks) host
        (EStateM.bind (hook.call machine record a) (fun _ =>
          hooks.forM fun hook => hook.call machine record a) host)
      rw [EStateM.bind]
      cases hcall : hook.call machine record a host with
      | error e host' => exact .upTo [] hooks rfl (called_nil machine record a host) hcall
      | ok _ between =>
          have hbetween : Host.ofResult (hook.call machine record a host) = between := by
            rw [hcall]
            rfl
          have hrest := ih between
          dsimp only
          generalize hooks.forM (fun hook => hook.call machine record a) between = r at hrest ⊢
          cases hrest with
          | all h => exact .all (called_cons hbetween h)
          | upTo before after hsplit hbefore hlast =>
              exact .upTo (hook :: before) after (congrArg (hook :: ·) hsplit)
                (called_cons hbetween hbefore) hlast

/-- What a filter makes of a text in a world, if it makes a text of it. -/
def filtered? (machine : String) (x : String × σ) (hook : Hook σ String Filtered) :
    Option (String × σ) :=
  match hook.handler machine x.1 x.2 with
  | .ok (.text text) world => some (text, world)
  | _ => none

end Hook

/-- The text that comes out and the world that is left, unless there was a failure. -/
def Host.passed? : EStateM.Result HookError (Host σ) String → Option (String × σ)
  | .ok text host => some (text, host.world)
  | .error _ _ => none

/-- A text goes through the filters from the first to the last. -/
theorem Registry.passed?_filterWith (machine : String) (hooks : List (Hook σ String Filtered))
    (text : String) (host : Host σ) :
    Host.passed? (filterWith machine hooks text host) =
      hooks.foldlM (Hook.filtered? machine) (text, host.world) := by
  induction hooks generalizing text host with
  | nil => rfl
  | cons hook hooks ih =>
      have hhost : (host.note (.filter hook.origin text)).world = host.world := rfl
      rw [List.foldlM_cons, filterWith]
      change Host.passed? (EStateM.bind (hook.call machine (.filter · text) text) _ host) = _
      rw [EStateM.bind, Hook.filtered?, Hook.call]
      dsimp only
      rw [hhost]
      cases hook.handler machine text host.world with
      | error e world => rfl
      | ok filtered world =>
          cases filtered with
          | foreign typeName => rfl
          | text filtered =>
              exact ih filtered { host.note (.filter hook.origin text) with world := world }

namespace Services

/-- Whatever is registered, the listeners of each event and the filters stand in stable order
by descending priority.  Refused registrations change nothing, and those of different
priorities may be made in any order.  Listeners are called, and filters composed, in the order
of these lists. -/
theorem hooks_by_priority (registrations : List (Registration σ)) :
    let s := (empty : Services σ).attemptAll registrations
    s.registry.Collects registrations ∧
    (∀ registration refusal,
      (s.register registration = .error refusal ↔ registration.Refused refusal) ∧
      (registration.Refused refusal → s.attempt registration = s)) ∧
    (∀ batch,
      ((∀ r ∈ batch, ∀ refusal, ¬r.Refused refusal) ∧
        s.registerAll batch = (s.attemptAll batch, none)) ∨
      ∃ before registration after refusal, batch = before ++ registration :: after ∧
        (∀ r ∈ before, ∀ other, ¬r.Refused other) ∧ registration.Refused refusal ∧
        s.registerAll batch = (s.attemptAll before, some refusal)) ∧
    (∀ others, Registration.Reorders registrations others →
      let t := (empty : Services σ).attemptAll others
      t.registry.listeners = s.registry.listeners ∧ t.registry.filters = s.registry.filters) ∧
    ∀ machine host,
      (∀ event, Hook.CalledAll machine (.event · event) event (s.registry.listeners event.kind)
        host (s.registry.emit machine event host)) ∧
      (∀ text, Host.passed? (s.registry.filterOutput machine text host) =
        s.registry.filters.foldlM (Hook.filtered? machine) (text, host.world)) ∧
      ∀ fs, List.Forall₂ (fun hook f => Hook.Computes machine f hook) s.registry.filters fs →
        ∀ text, ∃ host', s.registry.filterOutput machine text host =
          .ok (fs.foldl (fun text f => f text) text) host' := by
  intro s
  have hcollects : s.registry.Collects registrations := collects_attemptAll collects_empty _
  refine ⟨hcollects, fun registration refusal => ⟨register_eq_error_iff, fun hrefused => ?_⟩,
    registerAll_eq_attemptAll s, fun others hreorders => ?_, fun machine host => ⟨?_, ?_, ?_⟩⟩
  · rw [attempt, register_eq_error_iff.mpr hrefused]
  · have hothers : ((empty : Services σ).attemptAll others).registry.Collects others :=
      collects_attemptAll collects_empty _
    refine ⟨funext fun kind => ?_, ?_⟩
    · exact (hothers.listeners kind).unique (hcollects.listeners kind)
        (hreorders.ofPriority_filterMap Registration.priority?_of_listener?)
    · exact hothers.filters.unique hcollects.filters
        (hreorders.ofPriority_filterMap Registration.priority?_of_filter?)
  · exact fun event => Hook.calledAll_forM machine _ event _ host
  · exact fun text => Registry.passed?_filterWith machine _ text host
  · exact fun fs hfs text => Registry.filterWith_of_computes hfs text host

/-- Two extensions, one of which asks for an unknown event and for a period of zero, and the
same registrations with the two parts exchanged. -/
theorem hooks_by_priority_reordered :
    let listener (name : String) (priority : Int) (owner : String) : Registration Nat :=
      .listener name ⟨priority, ⟨owner, none⟩, fun _ _ world => .ok () (world + 1)⟩
    let rule (every : Int) : Registration Nat :=
      .stepRule every ⟨0, ⟨"a", none⟩, fun _ _ world => .ok () world⟩
    let first := [listener "macro_call" (-1) "a", listener "no_event" 5 "a", rule 0,
      listener "macro_call" (-1) "b"]
    let second := [listener "macro_call" 1000000000000000000000 "b", rule 2]
    Registration.Reorders (first ++ second) (second ++ first) ∧
      let s := (empty : Services Nat).attemptAll (first ++ second)
      let t := (empty : Services Nat).attemptAll (second ++ first)
      t.registry.listeners = s.registry.listeners ∧ t.registry.filters = s.registry.filters ∧
      (s.registry.listeners .macroCall).map (fun hook => (hook.priority, hook.origin.owner)) =
        [(1000000000000000000000, "b"), (-1, "a"), (-1, "b")] ∧
      s.registry.stepRules.map StepRule.every = [2] := by
  intro listener rule first second
  have hreorders : Registration.Reorders (first ++ second) (second ++ first) := by
    refine ⟨List.perm_append_comm, fun q => ?_⟩
    rw [List.filter_append, List.filter_append]
    by_cases hq : q = 1000000000000000000000
    · subst hq
      have hfirst : first.filter (fun r => r.priority? = some 1000000000000000000000) = [] := by
        decide +kernel
      rw [hfirst, List.append_nil]
      rfl
    · have hsecond : second.filter (fun r => r.priority? = some q) = [] := by
        simpa [second, listener, rule, Registration.priority?] using Ne.symm hq
      rw [hsecond, List.append_nil]
      rfl
  have h := (hooks_by_priority (first ++ second)).2.2.2.1 (second ++ first) hreorders
  exact ⟨hreorders, h.1, h.2, by decide +kernel, by decide +kernel⟩

end Services

end Stencil
