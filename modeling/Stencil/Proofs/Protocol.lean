import Stencil.Proofs.Transcript

/-!
# The protocol of a run

A run tells its listeners that it starts, executes its instructions, and tells the
listeners that it ends.  It comes as far as nothing fails.  Where something does, the
listeners for errors are told of it, and no other hook is called any more.
-/

namespace Stencil

variable {σ : Type} {c : Setting σ} {macros : MacroTable} {s s' s'' : State σ} {x : Failure}

/-- The hooks that are called while instructions execute. -/
def HookPoint.Executing : HookPoint → Prop
  | event kind => kind = .arrayIter ∨ kind = .macroCall
  | stepRule => True
  | outputFilter => True

/-- While instructions execute calls are made from one host to the other, up to the one
that fails with what is raised, if any does. -/
structure Stretch (c : Setting σ) (host : Host σ) (calls : List Call) (x : Option Failure)
    (host' : Host σ) : Prop where
  made : Transcript c host calls host'
  cut : Cut x calls
  placed : ∀ call ∈ calls, ∃ point, call.record.point? = some point ∧ point.Executing

namespace Stretch

variable {host between host' : Host σ} {calls calls' : List Call} {y : Option Failure}

theorem append (h : Stretch c host calls none between) (h' : Stretch c between calls' y host') :
    Stretch c host (calls ++ calls') y host' :=
  ⟨h.made.append h'.made, h.cut.append h'.cut, List.forall_mem_append.mpr ⟨h.placed, h'.placed⟩⟩

/-- Nothing is called. -/
theorem rest (hworld : host'.world = host.world) (hcalls : host'.calls = host.calls)
    (hy : ∀ point e, y ≠ some (.handler point e)) : Stretch c host [] y host' :=
  ⟨.rest hworld hcalls, .nil hy, List.forall_mem_nil _⟩

theorem refl (host : Host σ) (hy : ∀ point e, y ≠ some (.handler point e)) :
    Stretch c host [] y host :=
  rest rfl rfl hy

theorem of_makes {α : Type} {point : HookPoint} {r : EStateM.Result HookError (Host σ) α}
    (h : HostM.Makes c point host calls r) (hpoint : point.Executing) :
    Stretch c host calls (Failure.ofResult point r) (Host.ofResult r) :=
  ⟨h.made, h.cut, fun call hcall => ⟨point, h.placed call hcall, hpoint⟩⟩

theorem of_tells {event : Event} {failure : Option HookError}
    (htells : Tells event (c.registry.listeners event.kind) calls failure)
    (hmade : Transcript c host calls host') (hpoint : (HookPoint.event event.kind).Executing) :
    Stretch c host calls (failure.map (Failure.handler (.event event.kind))) host' where
  made := hmade
  cut := htells.cut
  placed := by
    intro call hcall
    rcases htells.records call hcall with ⟨origin, hrecord⟩
    exact ⟨.event event.kind, by rw [hrecord]; rfl, hpoint⟩

end Stretch

/-! ## Steps -/

namespace Task

variable {task : Task}

/-- A task of the instructions, which announces macro calls and iterations only. -/
def Inner : Task → Prop
  | announce event => (HookPoint.event event.kind).Executing
  | _ => True

/-- The tasks that an inner one leaves are inner. -/
theorem inner_of_steps {new : List Task} (h : Steps c macros task s new s') :
    ∀ t ∈ new, t.Inner := by
  cases h with
  | loop depth opening body s h => simp [Inner, HookPoint.Executing, Event.kind]
  | enter depth span m h => simp [Inner, HookPoint.Executing, Event.kind]
  | _ => simp [Inner]

theorem stretch_of_steps {new : List Task} (h : Steps c macros task s new s')
    (hinner : task.Inner) : ∃ calls, Stretch c s.host calls none s'.host := by
  cases h with
  | @announce event s host h =>
      rcases Registry.tells_emit c event s.host with ⟨calls, htells, hmade⟩
      rw [h] at htells hmade
      exact ⟨calls, .of_tells htells hmade hinner⟩
  | @rules context s host h =>
      rcases Registry.makes_afterStep c context s.host with ⟨calls, hmakes⟩
      rw [h] at hmakes
      exact ⟨calls, .of_makes hmakes trivial⟩
  | @filter text filtered s host h =>
      rcases Registry.makes_filterOutput c text s.host with ⟨calls, hmakes⟩
      rw [h] at hmakes
      exact ⟨calls, .of_makes hmakes trivial⟩
  | deliver h => exact ⟨[], .rest rfl (Host.calls_write _ _) (by simp)⟩
  | log i s => exact ⟨[], .rest rfl (Host.calls_note_quiet rfl _) (by simp)⟩
  | pushScope depth span s => exact ⟨[], .rest rfl (Host.calls_note_quiet rfl _) (by simp)⟩
  | item depth array span body index item rest s =>
      exact ⟨[], .rest rfl (Host.calls_note_quiet rfl _) (by simp)⟩
  | invoke depth span m text s =>
      exact ⟨[], .rest rfl (Host.calls_note_quiet rfl _) (by simp)⟩
  | _ => exact ⟨[], .refl _ (by simp)⟩

theorem stretch_of_fails (h : Fails c macros task s x s') (hinner : task.Inner) :
    ∃ calls, Stretch c s.host calls (some x) s'.host := by
  cases h with
  | @announce event s e host h =>
      rcases Registry.tells_emit c event s.host with ⟨calls, htells, hmade⟩
      rw [h] at htells hmade
      exact ⟨calls, .of_tells htells hmade hinner⟩
  | @rules context s e host h =>
      rcases Registry.makes_afterStep c context s.host with ⟨calls, hmakes⟩
      rw [h] at hmakes
      exact ⟨calls, .of_makes hmakes trivial⟩
  | @filter text s e host h =>
      rcases Registry.makes_filterOutput c text s.host with ⟨calls, hmakes⟩
      rw [h] at hmakes
      exact ⟨calls, .of_makes hmakes trivial⟩
  | _ => exact ⟨[], .refl _ (by simp)⟩

end Task

/-! ## Runs -/

namespace Agenda

/-- By induction on the steps; that all tasks are inner is the invariant. -/
theorem stretch_of_leads {tasks tasks' : List Task} (h : Leads c macros tasks s tasks' s')
    (hinner : ∀ t ∈ tasks, t.Inner) :
    (∀ t ∈ tasks', t.Inner) ∧ ∃ calls, Stretch c s.host calls none s'.host := by
  induction h with
  | refl tasks s => exact ⟨hinner, [], .refl _ (by simp)⟩
  | step hstep _ ih =>
      rcases List.forall_mem_cons.1 hinner with ⟨htask, hrest⟩
      rcases Task.stretch_of_steps hstep htask with ⟨calls, hfirst⟩
      rcases ih (List.forall_mem_append.mpr ⟨Task.inner_of_steps hstep, hrest⟩) with
        ⟨htasks, calls', hcalls'⟩
      exact ⟨htasks, calls ++ calls', hfirst.append hcalls'⟩

theorem stretch_of_raises {tasks : List Task} (h : Raises c macros tasks s x s')
    (hinner : ∀ t ∈ tasks, t.Inner) : ∃ calls, Stretch c s.host calls (some x) s'.host := by
  rcases h with ⟨task, rest, before, hleads, hfails⟩
  rcases stretch_of_leads hleads hinner with ⟨htasks, calls, hcalls⟩
  rcases Task.stretch_of_fails hfails (htasks task List.mem_cons_self) with ⟨calls', hcalls'⟩
  exact ⟨calls ++ calls', hcalls.append hcalls'⟩

theorem Leads.append {tasks tasks' : List Task} (h : Leads c macros tasks s tasks' s')
    (rest : List Task) : Leads c macros (tasks ++ rest) s (tasks' ++ rest) s' := by
  induction h with
  | refl tasks s => exact .refl _ _
  | @step task new others tasks s s' s'' hstep _ ih =>
      rw [List.append_assoc] at ih
      exact .step hstep ih

theorem Raises.append {tasks : List Task} (h : Raises c macros tasks s x s')
    (rest : List Task) : Raises c macros (tasks ++ rest) s x s' := by
  rcases h with ⟨task, others, before, hleads, hfails⟩
  exact ⟨task, others ++ rest, before, hleads.append rest, hfails⟩

theorem Raises.prepend {tasks tasks' : List Task} (h : Leads c macros tasks s tasks' s')
    (h' : Raises c macros tasks' s' x s'') : Raises c macros tasks s x s'' := by
  rcases h' with ⟨task, rest, before, hleads, hfails⟩
  exact ⟨task, rest, before, h.trans hleads, hfails⟩

end Agenda

/-! ## Announcements -/

/-- The listeners of an event are told, and one of them may fail; of the state only the
host changes. -/
structure Setting.Announces (c : Setting σ) (event : Event) (s : State σ) (calls : List Call)
    (failure : Option HookError) (s' : State σ) : Prop where
  tells : Tells event (c.registry.listeners event.kind) calls failure
  made : Transcript c s.host calls s'.host
  state : s' = { s with host := s'.host }

namespace Setting

theorem announces_of_emit_ok {event : Event} {host : Host σ}
    (h : c.registry.emit c.machine event s.host = .ok () host) :
    ∃ calls, c.Announces event s calls none { s with host := host } := by
  rcases Registry.tells_emit c event s.host with ⟨calls, htells, hmade⟩
  rw [h] at htells hmade
  exact ⟨calls, htells, hmade, rfl⟩

theorem announces_of_emit_error {event : Event} {e : HookError} {host : Host σ}
    (h : c.registry.emit c.machine event s.host = .error e host) :
    ∃ calls, c.Announces event s calls (some e) { s with host := host } := by
  rcases Registry.tells_emit c event s.host with ⟨calls, htells, hmade⟩
  rw [h] at htells hmade
  exact ⟨calls, htells, hmade, rfl⟩

end Setting

namespace Program

variable {p : Program} {world : σ}

/-- The instructions execute to their end, or something is raised. -/
inductive Executes (p : Program) (c : Setting σ) (s : State σ) :
    List Call → Option Failure → State σ → Prop where
  | completed {calls : List Call} {s' : State σ}
      (h : Agenda.Leads c p.macros [.fragment (Exec.callDepth p.macros) p.instructions] s [] s')
      (hcalls : Stretch c s.host calls none s'.host) : Executes p c s calls none s'
  | stopped {calls : List Call} {x : Failure} {s' : State σ}
      (h : Agenda.Raises c p.macros [.fragment (Exec.callDepth p.macros) p.instructions] s x s')
      (hcalls : Stretch c s.host calls (some x) s'.host) : Executes p c s calls (some x) s'

/-- How far a run comes, with the calls made at its start, while its instructions
execute and at its end, and with what it raised if it did not complete. -/
inductive Course (p : Program) (c : Setting σ) (world : σ) :
    List Call → List Call → List Call → Option Failure → State σ → Prop where
  | unstarted {starting : List Call} {e : HookError} {s : State σ}
      (hstart : c.Announces (.programStart p) (State.initial world) starting (some e) s) :
      Course p c world starting [] [] (some (.handler (.event .programStart) e)) s
  | stopped {starting executing : List Call} {x : Failure} {started s : State σ}
      (hstart : c.Announces (.programStart p) (State.initial world) starting none started)
      (hexecutes : p.Executes c started executing (some x) s) :
      Course p c world starting executing [] (some x) s
  | unended {starting executing ending : List Call} {e : HookError}
      {started executed s : State σ}
      (hstart : c.Announces (.programStart p) (State.initial world) starting none started)
      (hexecutes : p.Executes c started executing none executed)
      (hend : c.Announces .programEnd executed ending (some e) s) :
      Course p c world starting executing ending (some (.handler (.event .programEnd) e)) s
  | completed {starting executing ending : List Call} {started executed s : State σ}
      (hstart : c.Announces (.programStart p) (State.initial world) starting none started)
      (hexecutes : p.Executes c started executing none executed)
      (hend : c.Announces .programEnd executed ending none s) :
      Course p c world starting executing ending none s

end Program

/-! ## Reports -/

namespace Outcome

/-- The error that the listeners for errors are told of. -/
def reported (s : State σ) (x : Failure) : RuntimeError :=
  (x.error s.lastSpan).stamp s.lastIndex

/-- How a run ends that came to the state `s`: without a word if nothing was raised, and
else with the listeners for errors told.  Should one of them fail, its error takes the
place of the first. -/
inductive Closes (c : Setting σ) (s : State σ) : Option Failure → List Call → Outcome σ → Prop
  where
  | quiet : Closes c s none [] ⟨none, s⟩
  | told {x : Failure} {reporting : List Call} {s' : State σ}
      (h : c.Announces (.onError (reported s x)) s reporting none s') :
      Closes c s (some x) reporting ⟨some (reported s x), s'⟩
  | replaced {x : Failure} {reporting : List Call} {e : HookError} {s' : State σ}
      (h : c.Announces (.onError (reported s x)) s reporting (some e) s') :
      Closes c s (some x) reporting
        ⟨some ((Failure.handler (.event .onError) e).error s.lastSpan), s'⟩

theorem closes_of_reports {outcome : Outcome σ} (h : Reports c s x outcome) :
    ∃ reporting, Closes c s (some x) reporting outcome := by
  rcases reports_iff.mp h with ⟨host, hok, rfl⟩ | ⟨failure, host, herror, rfl⟩
  · rcases Setting.announces_of_emit_ok hok with ⟨reporting, hannounces⟩
    exact ⟨reporting, .told hannounces⟩
  · rcases Setting.announces_of_emit_error herror with ⟨reporting, hannounces⟩
    exact ⟨reporting, .replaced hannounces⟩

variable {y : Option Failure} {reporting : List Call} {outcome : Outcome σ}

theorem Closes.made (h : Closes c s y reporting outcome) :
    Transcript c s.host reporting outcome.state.host := by
  cases h with
  | quiet => exact .done _
  | told h => exact h.made
  | replaced h => exact h.made

theorem Closes.error_eq_none_iff (h : Closes c s y reporting outcome) :
    outcome.error = none ↔ y = none := by
  cases h with
  | quiet => simp
  | told h => simp
  | replaced h => simp

end Outcome

namespace Program

variable {p : Program} {world : σ}

theorem Executes.stretch {calls : List Call} {y : Option Failure}
    (h : p.Executes c s calls y s') : Stretch c s.host calls y s'.host := by
  cases h with
  | completed h hcalls => exact hcalls
  | stopped h hcalls => exact hcalls

theorem executes (p : Program) (c : Setting σ) (s : State σ) :
    ∃ calls y s', p.Executes c s calls y s' := by
  have hinner : ∀ t ∈ [Task.fragment (Exec.callDepth p.macros) p.instructions], t.Inner :=
    List.forall_mem_singleton.mpr trivial
  rcases Agenda.completes_or_raises c p.macros
      [.fragment (Exec.callDepth p.macros) p.instructions] s with ⟨s', hleads⟩ | ⟨x, s', hraises⟩
  · rcases (Agenda.stretch_of_leads hleads hinner).2 with ⟨calls, hcalls⟩
    exact ⟨calls, none, s', .completed hleads hcalls⟩
  · rcases Agenda.stretch_of_raises hraises hinner with ⟨calls, hcalls⟩
    exact ⟨calls, some x, s', .stopped hraises hcalls⟩

namespace Course

variable {starting executing ending : List Call} {y : Option Failure}

theorem made (h : p.Course c world starting executing ending y s) :
    Transcript c (Host.initial world) (starting ++ executing ++ ending) s.host := by
  cases h with
  | unstarted hstart =>
      rw [List.append_nil, List.append_nil]
      exact hstart.made
  | stopped hstart hexecutes =>
      rw [List.append_nil]
      exact hstart.made.append hexecutes.stretch.made
  | unended hstart hexecutes hend =>
      exact (hstart.made.append hexecutes.stretch.made).append hend.made
  | completed hstart hexecutes hend =>
      exact (hstart.made.append hexecutes.stretch.made).append hend.made

/-- Nothing is called after the first failure. -/
theorem cut (h : p.Course c world starting executing ending y s) :
    Cut y (starting ++ executing ++ ending) := by
  cases h with
  | unstarted hstart =>
      rw [List.append_nil, List.append_nil]
      exact hstart.tells.cut
  | stopped hstart hexecutes =>
      rw [List.append_nil]
      exact hstart.tells.cut.append hexecutes.stretch.cut
  | unended hstart hexecutes hend =>
      exact (hstart.tells.cut.append hexecutes.stretch.cut).append hend.tells.cut
  | completed hstart hexecutes hend =>
      exact (hstart.tells.cut.append hexecutes.stretch.cut).append hend.tells.cut

end Course

/-- The run is done, or fails with what was raised. -/
def ComesTo (p : Program) (c : Setting σ) (world : σ) : Option Failure → State σ → Prop
  | none, s => p.Reaches c world [] s
  | some x, s => p.Raises c world x s

theorem closes_of_comesTo {y : Option Failure} (h : p.ComesTo c world y s) :
    ∃ reporting, Outcome.Closes c s y reporting (p.run c world) := by
  cases y with
  | none =>
      rw [run_of_reaches h]
      exact ⟨[], .quiet⟩
  | some x => exact Outcome.closes_of_reports (reports_of_raises h)

/-- Every run takes one of the courses. -/
theorem course_of_run (p : Program) (c : Setting σ) (world : σ) :
    ∃ starting executing ending y s,
      p.Course c world starting executing ending y s ∧ p.ComesTo c world y s := by
  cases hstart : c.registry.emit c.machine (.programStart p) (State.initial world).host with
  | error e host =>
      rcases Setting.announces_of_emit_error hstart with ⟨starting, hstarting⟩
      have hraises : p.Raises c world (.handler (.event .programStart) e) _ :=
        ⟨_, _, _, .refl _ _, .announce hstart⟩
      exact ⟨starting, [], [], _, _, .unstarted hstarting, hraises⟩
  | ok _ host =>
      rcases Setting.announces_of_emit_ok hstart with ⟨starting, hstarting⟩
      have hstarted : p.Reaches c world
          ([.fragment (Exec.callDepth p.macros) p.instructions] ++ [.announce .programEnd])
          { State.initial world with host := host } :=
        .step (.announce hstart) (.refl _ _)
      rcases executes p c { State.initial world with host := host } with
        ⟨executing, y, executed, hexecutes⟩
      have hexecuted := hexecutes
      cases hexecuted with
      | stopped hraises _ =>
          have hraises' : p.Raises c world _ executed :=
            (hraises.append [.announce .programEnd]).prepend hstarted
          exact ⟨starting, executing, [], _, executed, .stopped hstarting hexecutes, hraises'⟩
      | completed hleads _ =>
          have hreaches : p.Reaches c world [.announce .programEnd] executed :=
            hstarted.trans (hleads.append [.announce .programEnd])
          cases hend : c.registry.emit c.machine .programEnd executed.host with
          | error e host' =>
              rcases Setting.announces_of_emit_error hend with ⟨ending, hending⟩
              have hraises : p.Raises c world (.handler (.event .programEnd) e) _ :=
                ⟨_, _, _, hreaches, .announce hend⟩
              exact ⟨starting, executing, ending, _, _,
                .unended hstarting hexecutes hending, hraises⟩
          | ok _ host' =>
              rcases Setting.announces_of_emit_ok hend with ⟨ending, hending⟩
              have hdone : p.Reaches c world [] { executed with host := host' } :=
                hreaches.trans (.step (.announce hend) (.refl _ _))
              exact ⟨starting, executing, ending, none, _,
                .completed hstarting hexecutes hending, hdone⟩

/-- The calls of hooks in a run, in their order: the listeners for the start; if none of
them fails, the calls made while instructions execute; if these execute to their end,
the listeners for the end; and if any of all this fails, the listeners for errors, who
are all told of that failure.  Each group ends early with a listener that fails.  Before
the reports nothing is called after the first failure, and these are all the calls that
the journal records. -/
theorem run_protocol (p : Program) (c : Setting σ) (world : σ) :
    ∃ starting executing ending reporting failure s,
      p.Course c world starting executing ending failure s ∧
      Outcome.Closes c s failure reporting (p.run c world) ∧
      Cut failure (starting ++ executing ++ ending) ∧
      Transcript c (Host.initial world) (starting ++ executing ++ ending ++ reporting)
        (p.run c world).state.host ∧
      (p.run c world).state.host.calls =
        (starting ++ executing ++ ending ++ reporting).map Call.record ∧
      ((p.run c world).error = none ↔ failure = none) := by
  rcases course_of_run p c world with ⟨starting, executing, ending, failure, s, hcourse, hcomes⟩
  rcases closes_of_comesTo hcomes with ⟨reporting, hcloses⟩
  have hmade := hcourse.made.append hcloses.made
  have hcalls := calls_of_transcript hmade
  exact ⟨starting, executing, ending, reporting, failure, s, hcourse, hcloses, hcourse.cut, hmade,
    hcalls, hcloses.error_eq_none_iff⟩

end Program

end Stencil
