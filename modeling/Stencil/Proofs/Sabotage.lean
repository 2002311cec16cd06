import Stencil.Proofs.Lockstep

/-!
# Handlers made to fail

One handler of a registry is made to fail from some call on.  Its calls are counted
beside the world, which the other hooks do not see.  Up to that call the hooks do the
same as before; at that call they are cut short, and what they did until then is a
beginning of what they did before.
-/

namespace Stencil

variable {σ α β : Type}

/-! ## Calls in sequence -/

namespace Link

variable {τ γ δ : Type} {link : Link σ τ} {point : HookPoint}

theorem follows_bind (hcut : link.Persistent) {values : α → β → Prop} {values' : γ → δ → Prop}
    {m : HostM σ α} {m' : HostM τ β} {k : α → HostM σ γ} {k' : β → HostM τ δ}
    {host : Host σ} {host' : Host τ} (hm : link.Follows point values (m host) (m' host'))
    (hgrows : ∀ a between, Host.Grows between (Host.ofResult (k a between)))
    (hk : ∀ a b between between', values a b → link.hosts between between' →
      link.Follows point values' (k a between) (k' b between')) :
    link.Follows point values' ((m >>= k) host) ((m' >>= k') host') := by
  change link.Follows point values' (EStateM.bind m k host) (EStateM.bind m' k' host')
  rw [EStateM.bind, EStateM.bind]
  cases hr : m host with
  | ok a between =>
      rw [hr] at hm
      rcases hm.of_ok with ⟨b, between', hr', hvalues, hhosts⟩ | ⟨e, between', hr', hc⟩
      · rw [hr']
        exact hk a b between between' hvalues hhosts
      · rw [hr']
        exact .cut (hcut hc (hgrows a between))
  | error e between =>
      rw [hr] at hm
      rcases hm.of_error with ⟨e', between', hr', ⟨rfl, hhosts⟩ | hc⟩
      · rw [hr']
        exact .error e' hhosts
      · rw [hr']
        exact .cut hc

theorem follows_forM (hcut : link.Persistent) {P : Record → Prop} {f : α → HostM σ Unit}
    {f' : β → HostM τ Unit} {as : List α} {bs : List β}
    (hextends : ∀ a host, Host.Extends P host (Host.ofResult (f a host)))
    (h : List.Forall₂ (fun a b => ∀ host host', link.hosts host host' →
      link.Follows point (· = ·) (f a host) (f' b host')) as bs)
    {host : Host σ} {host' : Host τ} (hhosts : link.hosts host host') :
    link.Follows point (· = ·) (as.forM f host) (bs.forM f' host') := by
  induction h generalizing host host' with
  | nil => exact .ok rfl hhosts
  | @cons a b as bs hab _ ih =>
      apply follows_bind hcut (hab host host' hhosts)
      · intro _ between
        exact (HostM.extends_forM (fun a _ => hextends a) between).grows
      · intro _ _ between between' _ hbetween
        exact ih hbetween

end Link

/-! ## Counting calls -/

/-- The host with a count beside its world. -/
def Host.beside (count : Nat) (host : Host σ) : Host (Nat × σ) :=
  ⟨(count, host.world), host.journal, host.written⟩

namespace Hook

/-- The hook leaves the count alone. -/
def beside (hook : Hook σ α β) : Hook (Nat × σ) α β where
  priority := hook.priority
  origin := hook.origin
  handler machine a := fun (count, world) =>
    match hook.handler machine a world with
    | .ok b world => .ok b (count, world)
    | .error e world => .error e (count, world)

/-- The hook counts its calls, and raises from some call on: after `limit` of them. -/
def failingAfter (limit : Nat) (raise : α → σ → HookError × σ) (hook : Hook σ α β) :
    Hook (Nat × σ) α β where
  priority := hook.priority
  origin := hook.origin
  handler machine a := fun (count, world) =>
    if count < limit then hook.beside.handler machine a (count + 1, world)
    else
      let (e, world) := raise a world
      .error e (count + 1, world)

end Hook

namespace StepRule

def beside (rule : StepRule σ) : StepRule (Nat × σ) :=
  ⟨rule.every, rule.hook.beside⟩

def failingAfter (limit : Nat) (raise : StepContext → σ → HookError × σ)
    (rule : StepRule σ) : StepRule (Nat × σ) :=
  ⟨rule.every, rule.hook.failingAfter limit raise⟩

end StepRule

/-- One handler, which is told of no errors, and what it raises when it fails. -/
inductive Sabotage (σ : Type) where
  | listener (kind : EventKind) (h : kind ≠ .onError) (index : Nat)
      (raise : Event → σ → HookError × σ)
  | stepRule (index : Nat) (raise : StepContext → σ → HookError × σ)
  | filter (index : Nat) (raise : String → σ → HookError × σ)

/-- One function applied to the element at an index, and the other to all others. -/
def mapBut (one other : α → β) : List α → Nat → List β
  | [], _ => []
  | a :: as, 0 => one a :: as.map other
  | a :: as, index + 1 => other a :: mapBut one other as index

namespace Registry

def beside (r : Registry σ) : Registry (Nat × σ) where
  listeners kind := (r.listeners kind).map Hook.beside
  stepRules := r.stepRules.map StepRule.beside
  filters := r.filters.map Hook.beside

/-- The handler fails after `limit` calls, and the others are left as they are. -/
def sabotaged (r : Registry σ) (limit : Nat) : Sabotage σ → Registry (Nat × σ)
  | .listener kind _ index raise =>
      { r.beside with
        listeners := fun k =>
          if k = kind then
            mapBut (Hook.failingAfter limit raise) Hook.beside (r.listeners k) index
          else r.beside.listeners k }
  | .stepRule index raise =>
      { r.beside with
        stepRules :=
          mapBut (StepRule.failingAfter limit raise) StepRule.beside r.stepRules index }
  | .filter index raise =>
      { r.beside with
        filters := mapBut (Hook.failingAfter limit raise) Hook.beside r.filters index }

end Registry

namespace Sabotage

/-- The handler is recorded to be called. -/
def Calls (r : Registry σ) : Sabotage σ → Record → Prop
  | .listener kind _ index _, record => ∃ hook event, (r.listeners kind)[index]? = some hook ∧
      event.kind = kind ∧ record = .event hook.origin event
  | .stepRule index _, record => ∃ rule context, r.stepRules[index]? = some rule ∧
      record = .step rule.hook.origin context
  | .filter index _, record => ∃ hook text, r.filters[index]? = some hook ∧
      record = .filter hook.origin text

end Sabotage

theorem forall₂_map {R : α → β → Prop} {f : α → β} (h : ∀ a, R a (f a)) (as : List α) :
    List.Forall₂ R as (as.map f) :=
  List.forall₂_map_right_iff.mpr (List.forall₂_same.mpr fun a _ => h a)

theorem forall₂_mapBut {R : α → β → Prop} {one other : α → β} {index : Nat} {as : List α}
    (hone : ∀ a, as[index]? = some a → R a (one a)) (hother : ∀ a, R a (other a)) :
    List.Forall₂ R as (mapBut one other as index) := by
  induction as generalizing index with
  | nil => exact .nil
  | cons a as ih =>
      cases index with
      | zero => exact .cons (hone a rfl) (forall₂_map hother as)
      | succ index => exact .cons (hother a) (ih fun b hb => hone b hb)

/-! ## Hooks that count or are counted -/

namespace Link

/-- The second host has a count beside it, of which `C` holds. -/
def counting (C : Nat → Prop) (cut : Failure → Host σ → Host (Nat × σ) → Prop) :
    Link σ (Nat × σ) where
  hosts host host' := ∃ count, C count ∧ host' = host.beside count
  chunks := Eq
  cut := cut

/-- One call more than `limit` was made, it was the last that is recorded, and what was
recorded and written is a beginning of what the first run has. -/
structure Exceeds (limit : Nat) (Q : Record → Prop) (host : Host σ) (host' : Host (Nat × σ)) :
    Prop where
  count : host'.world.1 = limit + 1
  last : ∃ done call, host'.journal.toList = done ++ [call] ∧ Q call
  journal : host'.journal.toList <+: host.journal.toList
  written : host'.written.toList <+: host.written.toList

/-- A call in which the count is left alone. -/
theorem count_of_follows {n : Nat} {point : HookPoint} {values : α → β → Prop}
    {r : EStateM.Result HookError (Host σ) α} {r' : EStateM.Result HookError (Host (Nat × σ)) β}
    (h : (counting (· = n) fun _ _ _ => False).Follows point values r r') :
    (Host.ofResult r').world.1 = n := by
  cases h with
  | ok _ hhosts =>
      rcases hhosts with ⟨count, rfl, rfl⟩
      rfl
  | error _ hhosts =>
      rcases hhosts with ⟨count, rfl, rfl⟩
      rfl
  | cut h => exact h.elim

theorem persistent_exceeds (C : Nat → Prop) (limit : Nat) (Q : Record → Prop) :
    (counting (σ := σ) C fun _ => Exceeds limit Q).Persistent := by
  intro x host later host' h hgrows
  exact ⟨h.count, h.last, h.journal.trans hgrows.journal, h.written.trans hgrows.written⟩

end Link

namespace Hook

variable {machine : String} {record : Origin → Record} {hook : Hook σ α β} {a : α}
  {point : HookPoint} {host : Host σ} {host' : Host (Nat × σ)}

theorem journal_call (machine : String) (record : Origin → Record) (hook : Hook σ α β) (a : α)
    (host : Host σ) :
    (Host.ofResult (hook.call machine record a host)).journal =
        host.journal.push (record hook.origin) ∧
      (Host.ofResult (hook.call machine record a host)).written = host.written := by
  rw [call]
  split
  · exact ⟨rfl, rfl⟩
  · exact ⟨rfl, rfl⟩

theorem follows_beside {C : Nat → Prop} {cut : Failure → Host σ → Host (Nat × σ) → Prop}
    (hhosts : (Link.counting C cut).hosts host host') :
    (Link.counting C cut).Follows point (· = ·) (hook.call machine record a host)
      (hook.beside.call machine record a host') := by
  rcases hhosts with ⟨count, hcount, rfl⟩
  simp only [call, beside, Host.beside, Host.note]
  cases hook.handler machine a host.world with
  | ok b world => exact .ok rfl ⟨count, hcount, rfl⟩
  | error e world => exact .error e ⟨count, hcount, rfl⟩

theorem call_failingAfter (limit : Nat) (raise : α → σ → HookError × σ) (machine : String)
    (record : Origin → Record) (hook : Hook σ α β) (a : α) (host : Host σ) :
    (hook.failingAfter limit raise).call machine record a (host.beside limit) =
      .error (raise a host.world).1
        ⟨(limit + 1, (raise a host.world).2), host.journal.push (record hook.origin),
          host.written⟩ := by
  simp only [call, failingAfter, Host.beside, Host.note, Nat.lt_irrefl, if_false]

theorem follows_failingAfter {limit : Nat} {Q : Record → Prop}
    (raise : α → σ → HookError × σ) (hQ : Q (record hook.origin))
    (hhosts : (Link.counting (· ≤ limit) fun _ => Link.Exceeds limit Q).hosts host host') :
    (Link.counting (· ≤ limit) fun _ => Link.Exceeds limit Q).Follows point (· = ·)
      (hook.call machine record a host)
      ((hook.failingAfter limit raise).call machine record a host') := by
  rcases hhosts with ⟨count, hcount, rfl⟩
  by_cases hbelow : count < limit
  · simp only [call, failingAfter, beside, Host.beside, Host.note, if_pos hbelow]
    cases hook.handler machine a host.world with
    | ok b world => exact .ok rfl ⟨count + 1, hbelow, rfl⟩
    | error e world => exact .error e ⟨count + 1, hbelow, rfl⟩
  · have hlast : count = limit := Nat.le_antisymm hcount (Nat.le_of_not_lt hbelow)
    rcases journal_call machine record hook a host with ⟨hjournal, hwritten⟩
    rw [hlast, call_failingAfter]
    apply Link.Follows.cut
    constructor
    · rfl
    · exact ⟨host.journal.toList, record hook.origin, Array.toList_push, hQ⟩
    · rw [hjournal]
    · rw [hwritten]

end Hook

namespace Registry

section Rules

variable (r : Registry σ) (machine : String)

theorem follows_listeners {link : Link σ (Nat × σ)} (hcut : link.Persistent)
    {point : HookPoint} (event : Event) {hooks : List (Hook σ Event Unit)}
    {hooks' : List (Hook (Nat × σ) Event Unit)}
    (h : List.Forall₂ (fun hook hook' => ∀ host host', link.hosts host host' →
      link.Follows point (· = ·) (hook.call machine (.event · event) event host)
        (hook'.call machine (.event · event) event host')) hooks hooks')
    {host : Host σ} {host' : Host (Nat × σ)} (hhosts : link.hosts host host') :
    link.Follows point (· = ·)
      (hooks.forM (fun hook => hook.call machine (.event · event) event) host)
      (hooks'.forM (fun hook => hook.call machine (.event · event) event) host') :=
  Link.follows_forM hcut (extends_listener machine event) h hhosts

/-- Listeners that all leave the count alone, whatever it is. -/
theorem follows_listeners_beside {C : Nat → Prop} (point : HookPoint) (event : Event)
    (hooks : List (Hook σ Event Unit)) {host : Host σ} {host' : Host (Nat × σ)}
    (hhosts : (Link.counting C fun _ _ _ => False).hosts host host') :
    (Link.counting C fun _ _ _ => False).Follows point (· = ·)
      (hooks.forM (fun hook => hook.call machine (.event · event) event) host)
      ((hooks.map Hook.beside).forM (fun hook => hook.call machine (.event · event) event)
        host') :=
  follows_listeners machine (fun h _ => h) event
    (forall₂_map (fun _ _ _ => Hook.follows_beside) hooks) hhosts

variable (limit : Nat) (sabotage : Sabotage σ)

/-- The runs with the registry and with the sabotaged one. -/
def sabotaging : Link σ (Nat × σ) :=
  Link.counting (· ≤ limit) fun _ => Link.Exceeds limit (sabotage.Calls r)

theorem persistent_sabotaging : (r.sabotaging limit sabotage).Persistent :=
  Link.persistent_exceeds _ limit _

variable {host : Host σ} {host' : Host (Nat × σ)}

theorem follows_emit (event : Event) (hhosts : (r.sabotaging limit sabotage).hosts host host') :
    (r.sabotaging limit sabotage).Follows (.event event.kind) (· = ·)
      (r.emit machine event host) ((r.sabotaged limit sabotage).emit machine event host') := by
  apply follows_listeners machine (r.persistent_sabotaging limit sabotage) event _ hhosts
  cases sabotage with
  | stepRule index raise => exact forall₂_map (fun hook _ _ => Hook.follows_beside) _
  | filter index raise => exact forall₂_map (fun hook _ _ => Hook.follows_beside) _
  | listener kind hkind index raise =>
      change List.Forall₂ _ _ (if event.kind = kind then _ else _)
      split
      · rename_i hsame
        apply forall₂_mapBut
        · intro hook hhook host host'
          rw [hsame] at hhook
          exact Hook.follows_failingAfter raise ⟨hook, event, hhook, hsame, rfl⟩
        · exact fun hook _ _ => Hook.follows_beside
      · exact forall₂_map (fun hook _ _ => Hook.follows_beside) _

theorem follows_afterStep (context : StepContext)
    (hhosts : (r.sabotaging limit sabotage).hosts host host') :
    (r.sabotaging limit sabotage).Follows .stepRule (· = ·)
      (r.afterStep machine context host)
      ((r.sabotaged limit sabotage).afterStep machine context host') := by
  have hbeside : ∀ (rule : StepRule σ) host host',
      (r.sabotaging limit sabotage).hosts host host' →
      (r.sabotaging limit sabotage).Follows .stepRule (· = ·)
        ((if context.index % rule.every = 0 then
          rule.hook.call machine (.step · context) context else pure ()) host)
        ((if context.index % rule.beside.every = 0 then
          rule.beside.hook.call machine (.step · context) context else pure ()) host') := by
    intro rule host host' hhosts
    by_cases hdue : context.index % rule.every = 0
    · rw [if_pos hdue, if_pos (show context.index % rule.beside.every = 0 from hdue)]
      exact Hook.follows_beside hhosts
    · rw [if_neg hdue, if_neg (show ¬context.index % rule.beside.every = 0 from hdue)]
      exact .ok rfl hhosts
  apply Link.follows_forM (r.persistent_sabotaging limit sabotage)
    (extends_rule machine context) _ hhosts
  cases sabotage with
  | listener kind hkind index raise => exact forall₂_map hbeside _
  | filter index raise => exact forall₂_map hbeside _
  | stepRule index raise =>
      apply forall₂_mapBut _ hbeside
      intro rule hrule host host' hhosts
      by_cases hdue : context.index % rule.every = 0
      · rw [if_pos hdue,
          if_pos (show context.index % (rule.failingAfter limit raise).every = 0 from hdue)]
        exact Hook.follows_failingAfter raise ⟨rule, context, hrule, rfl⟩ hhosts
      · rw [if_neg hdue,
          if_neg (show ¬context.index % (rule.failingAfter limit raise).every = 0 from hdue)]
        exact .ok rfl hhosts

theorem follows_filterWith {link : Link σ (Nat × σ)} (hcut : link.Persistent)
    {hooks : List (Hook σ String Filtered)} {hooks' : List (Hook (Nat × σ) String Filtered)}
    (h : List.Forall₂ (fun hook hook' => hook'.origin = hook.origin ∧
      ∀ text host host', link.hosts host host' →
        link.Follows .outputFilter (· = ·) (hook.call machine (.filter · text) text host)
          (hook'.call machine (.filter · text) text host')) hooks hooks')
    (text : String) (hhosts : link.hosts host host') :
    link.Follows .outputFilter (· = ·) (filterWith machine hooks text host)
      (filterWith machine hooks' text host') := by
  induction h generalizing text host host' with
  | nil => exact .ok rfl hhosts
  | @cons hook hook' hooks hooks' hhook _ ih =>
      rcases hhook with ⟨horigin, hcall⟩
      apply Link.follows_bind hcut (hcall text host host' hhosts)
      · intro filtered between
        cases filtered with
        | text filtered => exact (extends_filterWith machine hooks filtered between).grows
        | foreign typeName => exact .refl between
      · rintro filtered _ between between' rfl hbetween
        cases filtered with
        | text filtered => exact ih filtered hbetween
        | foreign typeName =>
            rw [horigin]
            exact .error _ hbetween

theorem follows_filterOutput (text : String)
    (hhosts : (r.sabotaging limit sabotage).hosts host host') :
    (r.sabotaging limit sabotage).Follows .outputFilter (· = ·)
      (r.filterOutput machine text host)
      ((r.sabotaged limit sabotage).filterOutput machine text host') := by
  apply follows_filterWith machine (r.persistent_sabotaging limit sabotage) _ text hhosts
  cases sabotage with
  | listener kind hkind index raise =>
      exact forall₂_map (fun hook => ⟨rfl, fun _ _ _ => Hook.follows_beside⟩) _
  | stepRule index raise =>
      exact forall₂_map (fun hook => ⟨rfl, fun _ _ _ => Hook.follows_beside⟩) _
  | filter index raise =>
      apply forall₂_mapBut
      · intro hook hhook
        refine ⟨rfl, fun text _ _ => ?_⟩
        exact Hook.follows_failingAfter raise ⟨hook, text, hhook, rfl⟩
      · exact fun hook => ⟨rfl, fun _ _ _ => Hook.follows_beside⟩

/-- The listeners for errors are none of them made to fail. -/
theorem listeners_sabotaged_onError :
    (r.sabotaged limit sabotage).listeners .onError = (r.listeners .onError).map Hook.beside := by
  cases sabotage with
  | listener kind hkind index raise => exact if_neg (Ne.symm hkind)
  | stepRule index raise => rfl
  | filter index raise => rfl

end Rules

end Registry

end Stencil
