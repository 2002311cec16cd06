import Stencil.Proofs.Growth

/-!
# Two runs in step

A program is run in two settings.  The runs go on in step as long as the calls of
hooks and the deliveries to the sink come to the same in both.  The second run may
be cut short at one of these; the first then goes on alone, and only adds to what
it had in common with the second.

What it is to come to the same is said by a link between the hosts of the runs.
Everything else in their states is equal, the snapshots in the logs apart where
only one of the runs takes them.
-/

namespace Stencil

variable {σ τ α β : Type}

/-! ## Links -/

/-- How two runs are compared: by their hosts, by the chunks that they deliver, and,
once a failure has cut the second short, by the host it left and the one that the
first has come to. -/
structure Link (σ τ : Type) where
  hosts : Host σ → Host τ → Prop
  chunks : String → String → Prop
  cut : Failure → Host σ → Host τ → Prop

namespace Link

section Rules

variable (link : Link σ τ)

/-- Calls of hooks come to the same, or the second fails and is cut short. -/
inductive Follows (point : HookPoint) (values : α → β → Prop) :
    EStateM.Result HookError (Host σ) α → EStateM.Result HookError (Host τ) β → Prop where
  | ok {a : α} {b : β} {host : Host σ} {host' : Host τ} (hvalues : values a b)
      (hhosts : link.hosts host host') : Follows point values (.ok a host) (.ok b host')
  | error (e : HookError) {host : Host σ} {host' : Host τ} (hhosts : link.hosts host host') :
      Follows point values (.error e host) (.error e host')
  | cut {r : EStateM.Result HookError (Host σ) α} {e : HookError} {host' : Host τ}
      (h : link.cut (.handler point e) (Host.ofResult r) host') :
      Follows point values r (.error e host')

/-- Deliveries come to the same, or the second is refused and cuts the run short. -/
inductive Delivers (c : Setting σ) (d : Setting τ) (text text' : String) (host : Host σ)
    (host' : Host τ) : Prop where
  | taken (h : c.sink host.written text = none) (h' : d.sink host'.written text' = none)
      (hhosts : link.hosts (host.write text) (host'.write text'))
  | refused {reason : String} (h : c.sink host.written text = some reason)
      (h' : d.sink host'.written text' = some reason)
  | cut {reason : String} (h : c.sink host.written text = none)
      (h' : d.sink host'.written text' = some reason)
      (hcut : link.cut (.breakdown (.sinkRefused reason)) (host.write text) host')

/-- Tasks are the same, but for the chunks that wait for delivery. -/
inductive Alike : Task → Task → Prop where
  | same {task : Task} (h : ∀ text, task ≠ .deliver text) : Alike task task
  | deliver {text text' : String} (h : link.chunks text text') :
      Alike (.deliver text) (.deliver text')

end Rules

/-- What was cut short stays so when the first run goes on. -/
def Persistent (link : Link σ τ) : Prop :=
  ∀ {x : Failure} {host later : Host σ} {host' : Host τ}, link.cut x host host' →
    host.Grows later → link.cut x later host'

/-- Nothing cuts the second run short. -/
def uncut (link : Link σ τ) : Link σ τ :=
  { link with cut := fun _ _ _ => False }

variable {link : Link σ τ} {point : HookPoint} {values : α → β → Prop}

theorem Follows.of_ok {a : α} {host : Host σ} {r : EStateM.Result HookError (Host τ) β}
    (h : link.Follows point values (.ok a host) r) :
    (∃ b host', r = .ok b host' ∧ values a b ∧ link.hosts host host') ∨
      ∃ e host', r = .error e host' ∧ link.cut (.handler point e) host host' := by
  cases h with
  | ok hvalues hhosts => exact .inl ⟨_, _, rfl, hvalues, hhosts⟩
  | cut h => exact .inr ⟨_, _, rfl, h⟩

theorem Follows.of_error {e : HookError} {host : Host σ}
    {r : EStateM.Result HookError (Host τ) β}
    (h : link.Follows point values (.error e host) r) :
    ∃ e' host', r = .error e' host' ∧
      ((e' = e ∧ link.hosts host host') ∨ link.cut (.handler point e') host host') := by
  cases h with
  | error e hhosts => exact ⟨_, _, rfl, .inl ⟨rfl, hhosts⟩⟩
  | cut h => exact ⟨_, _, rfl, .inr h⟩

theorem alike_self {tasks : List Task} (h : ∀ task ∈ tasks, ∀ text, task ≠ .deliver text) :
    List.Forall₂ link.Alike tasks tasks := by
  induction tasks with
  | nil => exact .nil
  | cons task tasks ih =>
      rcases List.forall_mem_cons.mp h with ⟨htask, htasks⟩
      exact .cons (.same htask) (ih htasks)

end Link

/-! ## States in step -/

/-- The entry without its snapshot. -/
def LogEntry.bare (entry : LogEntry) : LogEntry :=
  { entry with snapshot := none }

/-- What two settings have to do with each other, for runs of a program in step.  How a
filter is called may depend on where the second run, which began in `world`, has come
to. -/
structure Lockstep (p : Program) (c : Setting σ) (d : Setting τ) (world : τ)
    (link : Link σ τ) : Prop where
  environment : d.environment = c.environment
  note : ∀ record {host host'}, link.hosts host host' →
    link.hosts (host.note record) (host'.note record)
  persistent : link.Persistent
  emit : ∀ event {host host'}, link.hosts host host' →
    link.Follows (.event event.kind) (· = ·) (c.registry.emit c.machine event host)
      (d.registry.emit d.machine event host')
  afterStep : ∀ context {host host'}, link.hosts host host' →
    link.Follows .stepRule (· = ·) (c.registry.afterStep c.machine context host)
      (d.registry.afterStep d.machine context host')
  filter : ∀ text rest {host} {t : State τ}, p.Reaches d world (.filter text :: rest) t →
    link.hosts host t.host →
    link.Follows .outputFilter link.chunks (c.registry.filterOutput c.machine text host)
      (d.registry.filterOutput d.machine text t.host)
  deliver : ∀ {text text' host host'}, link.chunks text text' → link.hosts host host' →
    link.Delivers c d text text' host host'

namespace State

section Rules

variable (c : Setting σ) (d : Setting τ) (link : Link σ τ)

structure Matches (s : State σ) (t : State τ) : Prop where
  frames : t.frames = s.frames
  captures : t.captures = s.captures
  frameCount : t.frameCount = s.frameCount
  bare : t.log.toList.map LogEntry.bare = s.log.toList.map LogEntry.bare
  log : d.verbose = c.verbose → t.log = s.log
  host : link.hosts s.host t.host

/-- The second run was cut short in the state `t`; the first has come to `s`. -/
structure Cut (x : Failure) (s : State σ) (t : State τ) : Prop where
  log : d.verbose = c.verbose → t.log.toList <+: s.log.toList
  host : link.cut x s.host t.host

end Rules

variable {c : Setting σ} {d : Setting τ} {link : Link σ τ} {s : State σ} {t : State τ}

theorem Matches.log_prefix (h : Matches c d link s t) (hverbose : d.verbose = c.verbose) :
    t.log.toList <+: s.log.toList := by
  rw [h.log hverbose]

theorem Matches.log_size (h : Matches c d link s t) : t.log.size = s.log.size := by
  have hlength := congrArg List.length h.bare
  simpa using hlength

theorem Matches.log_back (h : Matches c d link s t) :
    t.log.back?.map LogEntry.bare = s.log.back?.map LogEntry.bare := by
  rw [← Array.getLast?_toList, ← Array.getLast?_toList, ← List.getLast?_map,
    ← List.getLast?_map, h.bare]

theorem Matches.lastSpan (h : Matches c d link s t) : t.lastSpan = s.lastSpan := by
  have hback := congrArg (fun entry => entry.bind LogEntry.span) h.log_back
  simp only [Option.bind_map] at hback
  exact hback

theorem Matches.lastIndex (h : Matches c d link s t) : t.lastIndex = s.lastIndex := by
  have hback := congrArg (fun entry => entry.map LogEntry.index) h.log_back
  simp only [Option.map_map] at hback
  exact hback

theorem Matches.frame (h : Matches c d link s t) : t.frame = s.frame := by
  rw [State.frame, State.frame, h.frames]

theorem Matches.context (h : Matches c d link s t) (i : Instruction) :
    t.context i = s.context i := by
  rw [State.context, State.context, h.log_size, h.frame]

end State

/-! ## Steps in step -/

namespace Lockstep

variable {p : Program} {c : Setting σ} {d : Setting τ} {world : τ} {link : Link σ τ}
  {s s' : State σ} {t : State τ} {task task' : Task} {x : Failure}

open State (Matches Cut)

theorem matches_logged (L : Lockstep p c d world link) (h : Matches c d link s t)
    (i : Instruction) :
    Matches c d link (s.logged c.verbose i) (t.logged d.verbose i) where
  frames := h.frames
  captures := h.captures
  frameCount := h.frameCount
  bare := by
    simp only [State.logged, Array.toList_push, List.map_append, h.bare, h.log_size, h.frame]
    rfl
  log := by
    intro hverbose
    simp only [State.logged, h.log hverbose, h.frame, h.frames, hverbose]
  host := by
    simp only [State.logged, h.log_size]
    exact L.note _ h.host

/-- A task that calls no hooks and delivers nothing. -/
def Silent : Task → Prop
  | .announce _ | .rules _ | .filter _ | .deliver _ => False
  | _ => True

theorem steps_of_silent (L : Lockstep p c d world link) (hsilent : Silent task)
    (hmatch : Matches c d link s t) {new : List Task} (h : task.Steps c p.macros s new s') :
    ∃ t', task.Steps d p.macros t new t' ∧ Matches c d link s' t' := by
  rcases t with ⟨frames, captures, frameCount, log, host⟩
  rcases hmatch with ⟨hframes, hcaptures, hcount, hbare, hlog, hhost⟩
  subst hframes
  subst hcaptures
  subst hcount
  have hsame : ∀ {frames captures count}, Matches c d link
      ⟨frames, captures, count, s.log, s.host⟩ ⟨frames, captures, count, log, host⟩ :=
    ⟨rfl, rfl, rfl, hbare, hlog, hhost⟩
  have hopened : ∀ {frames captures count} frame, Matches c d link
      ⟨frames, captures, count, s.log, s.host.note (.opened frame)⟩
      ⟨frames, captures, count, log, host.note (.opened frame)⟩ :=
    fun frame => ⟨rfl, rfl, rfl, hbare, hlog, L.note _ hhost⟩
  cases h with
  | announce h => exact hsilent.elim
  | rules h => exact hsilent.elim
  | filter h => exact hsilent.elim
  | deliver h => exact hsilent.elim
  | log i s =>
      have hstep : Task.Steps d p.macros (.log i)
          ⟨s.frames, s.captures, s.frameCount, log, host⟩ _ _ := .log i _
      rw [hsame.context i] at hstep
      exact ⟨_, hstep, L.matches_logged hsame i⟩
  | capture h => exact ⟨_, .capture h, hsame⟩
  | write text h => exact ⟨_, .write text h, hsame⟩
  | emitLiteral depth span text s =>
      exact ⟨_, .emitLiteral depth span text _, hsame⟩
  | emitVar depth span h =>
      rw [← L.environment] at h
      exact ⟨_, .emitVar depth span h, hsame⟩
  | call depth span s h =>
      exact ⟨_, .call depth span _ h, hsame⟩
  | endMacroCall depth span s =>
      exact ⟨_, .endMacroCall depth span _, hsame⟩
  | pushScope depth span s =>
      exact ⟨_, .pushScope depth span _, hopened _⟩
  | popScope depth span s =>
      exact ⟨_, .popScope depth span _, hsame⟩
  | beginCapture depth span s =>
      exact ⟨_, .beginCapture depth span _, hsame⟩
  | endCapture depth span name h =>
      exact ⟨_, .endCapture depth span name h, hsame⟩
  | comment depth span text s =>
      exact ⟨_, .comment depth span text _, hsame⟩
  | bind name text h => exact ⟨_, .bind name text h, hsame⟩
  | leave h => exact ⟨_, .leave h, hsame⟩
  | loop depth opening body s h =>
      rw [← L.environment] at h
      exact ⟨_, .loop depth opening body _ h, hsame⟩
  | noItem depth array span body index s =>
      exact ⟨_, .noItem depth array span body index _, hsame⟩
  | item depth array span body index item rest s =>
      exact ⟨_, .item depth array span body index item rest _, hopened _⟩
  | done depth s => exact ⟨_, .done depth _, hsame⟩
  | step depth action span rest s =>
      exact ⟨_, .step depth action span rest _, hsame⟩
  | iteration depth opening closing array body rest s =>
      exact ⟨_, .iteration depth opening closing array body rest _, hsame⟩
  | fragment depth s h => exact ⟨_, .fragment depth _ h, hsame⟩
  | enter depth span m h => exact ⟨_, .enter depth span m h, hsame⟩
  | invoke depth span m text s =>
      exact ⟨_, .invoke depth span m text _, hopened _⟩

theorem ne_deliver_of_silent (hsilent : Silent task) {new : List Task}
    (h : task.Steps c p.macros s new s') : ∀ next ∈ new, ∀ text, next ≠ .deliver text := by
  cases h with
  | filter h => exact hsilent.elim
  | _ => simp

theorem fails_of_silent (L : Lockstep p c d world link) (hsilent : Silent task)
    (hmatch : Matches c d link s t) (h : task.Fails c p.macros s x s') :
    ∃ t', task.Fails d p.macros t x t' ∧ Matches c d link s' t' := by
  rcases t with ⟨frames, captures, frameCount, log, host⟩
  rcases hmatch with ⟨hframes, hcaptures, hcount, hbare, hlog, hhost⟩
  subst hframes
  subst hcaptures
  subst hcount
  have hsame : ∀ {frames captures count}, Matches c d link
      ⟨frames, captures, count, s.log, s.host⟩ ⟨frames, captures, count, log, host⟩ :=
    ⟨rfl, rfl, rfl, hbare, hlog, hhost⟩
  cases h with
  | announce h => exact hsilent.elim
  | rules h => exact hsilent.elim
  | filter h => exact hsilent.elim
  | deliver h => exact hsilent.elim
  | emitVar depth span h =>
      rw [← L.environment] at h
      exact ⟨_, .emitVar depth span h, hsame⟩
  | tooDeep span name block s =>
      exact ⟨_, .tooDeep span name block _, hsame⟩
  | missing depth span s h =>
      exact ⟨_, .missing depth span _ h, hsame⟩
  | endCapture depth span name h =>
      exact ⟨_, .endCapture depth span name h, hsame⟩
  | nop depth span s => exact ⟨_, .nop depth span _, hsame⟩
  | bind name text h => exact ⟨_, .bind name text h, hsame⟩
  | leave h => exact ⟨_, .leave h, hsame⟩
  | loop depth opening body s h =>
      rw [← L.environment] at h
      exact ⟨_, .loop depth opening body _ h, hsame⟩
  | fragment depth s h => exact ⟨_, .fragment depth _ h, hsame⟩
  | enter depth span m h => exact ⟨_, .enter depth span m h, hsame⟩

/-- A step of the first run is a step of the second, or cuts it short. -/
theorem steps (L : Lockstep p c d world link) (halike : link.Alike task task')
    {rest : List Task} (hreaches : p.Reaches d world (task' :: rest) t)
    (hmatch : Matches c d link s t) {new : List Task} (h : task.Steps c p.macros s new s') :
    (∃ new' t', task'.Steps d p.macros t new' t' ∧ List.Forall₂ link.Alike new new' ∧
      Matches c d link s' t') ∨
    ∃ x t', task'.Fails d p.macros t x t' ∧ Cut c d link x s' t' := by
  have hlog := hmatch.log_prefix
  cases halike with
  | deliver hchunks =>
      cases h with
      | deliver h =>
          cases L.deliver hchunks hmatch.host with
          | taken _ htaken hhosts =>
              exact .inl ⟨_, _, .deliver htaken, .nil, { hmatch with host := hhosts }⟩
          | refused hrefused _ =>
              rw [h] at hrefused
              cases hrefused
          | cut _ hrefused hcut => exact .inr ⟨_, _, .deliver hrefused, hlog, hcut⟩
  | same hsame =>
      by_cases hsilent : Silent task
      · rcases L.steps_of_silent hsilent hmatch h with ⟨t', hstep, hmatch'⟩
        exact .inl ⟨new, t', hstep, Link.alike_self (ne_deliver_of_silent hsilent h), hmatch'⟩
      · cases h with
        | @announce event s host h =>
            have hfollows := L.emit event hmatch.host
            rw [h] at hfollows
            rcases hfollows.of_ok with ⟨_, host', hok, _, hhosts⟩ | ⟨e, host', herror, hcut⟩
            · exact .inl ⟨_, _, .announce hok, .nil, { hmatch with host := hhosts }⟩
            · exact .inr ⟨_, _, .announce herror, hlog, hcut⟩
        | @rules context s host h =>
            have hfollows := L.afterStep context hmatch.host
            rw [h] at hfollows
            rcases hfollows.of_ok with ⟨_, host', hok, _, hhosts⟩ | ⟨e, host', herror, hcut⟩
            · exact .inl ⟨_, _, .rules hok, .nil, { hmatch with host := hhosts }⟩
            · exact .inr ⟨_, _, .rules herror, hlog, hcut⟩
        | @filter text filtered s host h =>
            have hfollows := L.filter text rest hreaches hmatch.host
            rw [h] at hfollows
            rcases hfollows.of_ok with ⟨_, host', hok, hchunks, hhosts⟩ | ⟨e, host', herror, hcut⟩
            · exact .inl ⟨_, _, .filter hok, .cons (.deliver hchunks) .nil,
                { hmatch with host := hhosts }⟩
            · exact .inr ⟨_, _, .filter herror, hlog, hcut⟩
        | @deliver text s h => exact absurd rfl (hsame text)
        | _ => exact absurd trivial hsilent

/-- Where the first run fails, the second fails alike, or is cut short. -/
theorem fails (L : Lockstep p c d world link) (halike : link.Alike task task')
    {rest : List Task} (hreaches : p.Reaches d world (task' :: rest) t)
    (hmatch : Matches c d link s t) (h : task.Fails c p.macros s x s') :
    (∃ t', task'.Fails d p.macros t x t' ∧ Matches c d link s' t') ∨
    ∃ y t', task'.Fails d p.macros t y t' ∧ Cut c d link y s' t' := by
  have hlog := hmatch.log_prefix
  cases halike with
  | deliver hchunks =>
      cases h with
      | deliver h =>
          cases L.deliver hchunks hmatch.host with
          | taken htaken _ _ =>
              rw [h] at htaken
              cases htaken
          | refused hrefused hrefused' =>
              rw [h] at hrefused
              cases hrefused
              exact .inl ⟨_, .deliver hrefused', hmatch⟩
          | cut htaken _ _ =>
              rw [h] at htaken
              cases htaken
  | same hsame =>
      by_cases hsilent : Silent task
      · exact .inl (L.fails_of_silent hsilent hmatch h)
      · cases h with
        | @announce event s e host h =>
            have hfollows := L.emit event hmatch.host
            rw [h] at hfollows
            rcases hfollows.of_error with ⟨e', host', herror, ⟨rfl, hhosts⟩ | hcut⟩
            · exact .inl ⟨_, .announce herror, { hmatch with host := hhosts }⟩
            · exact .inr ⟨_, _, .announce herror, hlog, hcut⟩
        | @rules context s e host h =>
            have hfollows := L.afterStep context hmatch.host
            rw [h] at hfollows
            rcases hfollows.of_error with ⟨e', host', herror, ⟨rfl, hhosts⟩ | hcut⟩
            · exact .inl ⟨_, .rules herror, { hmatch with host := hhosts }⟩
            · exact .inr ⟨_, _, .rules herror, hlog, hcut⟩
        | @filter text s e host h =>
            have hfollows := L.filter text rest hreaches hmatch.host
            rw [h] at hfollows
            rcases hfollows.of_error with ⟨e', host', herror, ⟨rfl, hhosts⟩ | hcut⟩
            · exact .inl ⟨_, .filter herror, { hmatch with host := hhosts }⟩
            · exact .inr ⟨_, _, .filter herror, hlog, hcut⟩
        | @deliver text reason s h => exact absurd rfl (hsame text)
        | _ => exact absurd trivial hsilent

/-! ## Runs in step -/

/-- What the first run adds after the second was cut short changes nothing in how they
compare. -/
theorem cut_of_grows (L : Lockstep p c d world link) (h : Cut c d link x s t)
    (hgrows : s.Grows s') : Cut c d link x s' t where
  log := fun hverbose => (h.log hverbose).trans hgrows.log
  host := L.persistent h.host hgrows.host

theorem leads (L : Lockstep p c d world link) {tasks after tasks' : List Task}
    (h : Agenda.Leads c p.macros tasks s after s') (halike : List.Forall₂ link.Alike tasks tasks')
    (hreaches : p.Reaches d world tasks' t) (hmatch : Matches c d link s t) :
    (∃ after' t', p.Reaches d world after' t' ∧ List.Forall₂ link.Alike after after' ∧
      Matches c d link s' t') ∨
    ∃ x t', p.Raises d world x t' ∧ Cut c d link x s' t' := by
  induction h generalizing tasks' t with
  | refl tasks s => exact .inl ⟨tasks', t, hreaches, halike, hmatch⟩
  | step hstep hrest ih =>
      cases halike with
      | @cons _ task' _ rest' htask hrestAlike =>
          rcases L.steps htask hreaches hmatch hstep with
            ⟨new', t', hstep', hnew, hmatch'⟩ | ⟨x, t', hfails, hcut⟩
          · apply ih (List.rel_append hnew hrestAlike) _ hmatch'
            exact hreaches.trans (.step hstep' (.refl _ _))
          · refine .inr ⟨x, t', ⟨task', rest', t, hreaches, hfails⟩, ?_⟩
            exact L.cut_of_grows hcut (Agenda.grows_of_leads hrest)

/-- Both runs complete in step, or both raise the same, or the second is cut short and
the first goes on to its end. -/
theorem runs (L : Lockstep p c d world link) {start : σ}
    (hstart : link.hosts (Host.initial start) (Host.initial world)) :
    (∃ s t, p.Reaches c start [] s ∧ p.Reaches d world [] t ∧ Matches c d link s t) ∨
    (∃ x s t, p.Raises c start x s ∧ p.Raises d world x t ∧ Matches c d link s t) ∨
    ∃ y s t, (p.Reaches c start [] s ∨ ∃ x, p.Raises c start x s) ∧ p.Raises d world y t ∧
      Cut c d link y s t := by
  have hagenda : List.Forall₂ link.Alike p.agenda p.agenda :=
    Link.alike_self (by simp [Program.agenda])
  have hmatch : Matches c d link (State.initial start) (State.initial world) :=
    ⟨rfl, rfl, rfl, rfl, fun _ => rfl, hstart⟩
  rcases Program.completes_or_raises p c start with ⟨s, hreaches⟩ | ⟨x, s, hraises⟩
  · rcases L.leads hreaches hagenda (.refl _ _) hmatch with
      ⟨after', t, hreaches', hafter, hmatch'⟩ | ⟨y, t, hraises', hcut⟩
    · cases hafter
      exact .inl ⟨s, t, hreaches, hreaches', hmatch'⟩
    · exact .inr (.inr ⟨y, s, t, .inl hreaches, hraises', hcut⟩)
  · rcases hraises with ⟨task, rest, before, hleads, hfails⟩
    have hraises : p.Raises c start x s := ⟨task, rest, before, hleads, hfails⟩
    rcases L.leads hleads hagenda (.refl _ _) hmatch with
      ⟨after', t, hreaches', hafter, hmatch'⟩ | ⟨y, t, hraises', hcut⟩
    · cases hafter with
      | @cons _ task' _ rest' htask _ =>
          rcases L.fails htask hreaches' hmatch' hfails with
            ⟨t', hfails', hmatch''⟩ | ⟨y, t', hfails', hcut⟩
          · exact .inr (.inl ⟨x, s, t', hraises, ⟨task', rest', t, hreaches', hfails'⟩, hmatch''⟩)
          · exact .inr (.inr ⟨y, s, t', .inr ⟨x, hraises⟩,
              ⟨task', rest', t, hreaches', hfails'⟩, hcut⟩)
    · exact .inr (.inr ⟨y, s, t, .inr ⟨x, hraises⟩, hraises',
        L.cut_of_grows hcut (Task.grows_of_fails hfails)⟩)

/-! ## Outcomes in step -/

/-- Errors are reported alike if the listeners for errors are not what cuts the second
run short. -/
theorem reports (hmatch : Matches c d link s t) {outcome : Outcome σ} {outcome' : Outcome τ}
    (hemit : link.uncut.Follows (.event .onError) (· = ·)
      (c.registry.emit c.machine (.onError ((x.error s.lastSpan).stamp s.lastIndex)) s.host)
      (d.registry.emit d.machine (.onError ((x.error s.lastSpan).stamp s.lastIndex)) t.host))
    (h : Outcome.Reports c s x outcome) (h' : Outcome.Reports d t x outcome') :
    outcome'.error = outcome.error ∧ Matches c d link outcome.state outcome'.state := by
  have hspan := hmatch.lastSpan
  have hindex := hmatch.lastIndex
  rw [Outcome.reports_iff] at h h'
  rw [hspan, hindex] at h'
  rcases h with ⟨host, hok, rfl⟩ | ⟨failure, host, herror, rfl⟩
  · rcases h' with ⟨host', hok', rfl⟩ | ⟨failure', host', herror', rfl⟩
    · rw [hok, hok'] at hemit
      cases hemit with
      | ok _ hhosts => exact ⟨rfl, { hmatch with host := hhosts }⟩
    · rw [hok, herror'] at hemit
      cases hemit with
      | cut h => exact h.elim
  · rcases h' with ⟨host', hok', rfl⟩ | ⟨failure', host', herror', rfl⟩
    · rw [herror, hok'] at hemit
      cases hemit
    · rw [herror, herror'] at hemit
      cases hemit with
      | error _ hhosts => exact ⟨rfl, { hmatch with host := hhosts }⟩
      | cut h => exact h.elim

/-- The runs end alike, or the second was cut short and the first added to what it had
done by then. -/
theorem outcomes (L : Lockstep p c d world link) {start : σ}
    (hstart : link.hosts (Host.initial start) (Host.initial world))
    (hreport : ∀ x s t, p.Raises d world x t → Matches c d link s t →
      link.uncut.Follows (.event .onError) (· = ·)
        (c.registry.emit c.machine (.onError ((x.error s.lastSpan).stamp s.lastIndex)) s.host)
        (d.registry.emit d.machine (.onError ((x.error s.lastSpan).stamp s.lastIndex)) t.host)) :
    ((p.run d world).error = (p.run c start).error ∧
      Matches c d link (p.run c start).state (p.run d world).state) ∨
    ∃ x t, p.Raises d world x t ∧ Cut c d link x (p.run c start).state t := by
  rcases L.runs hstart with
    ⟨s, t, hreaches, hreaches', hmatch⟩ | ⟨x, s, t, hraises, hraises', hmatch⟩ |
    ⟨y, s, t, hfirst, hraises', hcut⟩
  · rw [Program.run_of_reaches hreaches, Program.run_of_reaches hreaches']
    exact .inl ⟨rfl, hmatch⟩
  · exact .inl (reports hmatch (hreport x s t hraises' hmatch)
      (Program.reports_of_raises hraises) (Program.reports_of_raises hraises'))
  · refine .inr ⟨y, t, hraises', ?_⟩
    rcases hfirst with hreaches | ⟨x, hraises⟩
    · rw [Program.run_of_reaches hreaches]
      exact hcut
    · exact L.cut_of_grows hcut (Program.grows_run_of_raises hraises)

end Lockstep

end Stencil
