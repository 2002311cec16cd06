import Stencil.Proofs.Episodes
import Stencil.Proofs.Observing

/-!
# When hooks are called

As long as no hook fails, every episode of a run is recorded as a whole, also where the run
ends in an error.  So the step rules are called at the steps whose index is a multiple of
their period, the listeners for iterations once for each, the listeners for macro calls
once before each frame of a call, the filters once for each text that is emitted while no
capture is open, and none of them at any other time.
-/

namespace Stencil

variable {σ : Type} {p : Program} {c : Setting σ} {macros : MacroTable} {world : σ}
  {s s' : State σ} {task : Task} {rest : List Task}

/-- What the machine itself raises, it raises when nothing is owed, and it leaves the state
as it is. -/
theorem Phase.settled_of_fails {owed : List Record} {x : Failure}
    (hphase : Phase c owed (task :: rest) s) (h : task.Fails c macros s x s')
    (hx : ∀ point e, x ≠ .handler point e) :
    owed = [] ∧ awaiting (task :: rest) = [] ∧ s' = s := by
  have hstate : s' = s := by
    cases h with
    | announce h => exact absurd rfl (hx _ _)
    | rules h => exact absurd rfl (hx _ _)
    | filter h => exact absurd rfl (hx _ _)
    | _ => rfl
  suffices hsettled : owed = [] ∧ awaiting (task :: rest) = [] from
    ⟨hsettled.1, hsettled.2, hstate⟩
  cases hphase with
  | waiting s hwaiting => exact ⟨rfl, hwaiting.awaiting⟩
  | executing hlogged htask hrest =>
      cases htask with
      | perform depth span action => exact ⟨rfl, rfl⟩
      | loop depth opening array body =>
          cases h with
          | loop _ _ _ _ h => exact ⟨by simp only [Setting.iterated, h], rfl⟩
  | ruling context hlogged htask hrest =>
      cases h with
      | rules h => exact absurd rfl (hx _ _)
  | closing s context hrest =>
      cases h with
      | rules h => exact absurd rfl (hx _ _)
  | telling s iteration hrest =>
      cases h with
      | announce h => exact absurd rfl (hx _ _)
  | calling s depth span m text hrest =>
      cases h with
      | announce h => exact absurd rfl (hx _ _)
  | invoking s depth span m text hrest => cases h
  | filtering s text hrest =>
      cases h with
      | filter h => exact absurd rfl (hx _ _)

/-! ## Kinds of records -/

namespace Record

def isStep : Record → Bool
  | step _ _ => true
  | _ => false

/-- The call of a listener for iterations. -/
def isIteration : Record → Bool
  | event _ (.arrayIter _) => true
  | _ => false

/-- The call of a listener for macro calls, or the frame of a call. -/
def isMacroCall : Record → Bool
  | event _ (.macroCall _) => true
  | opened frame => frame.kind = .call
  | _ => false

def isFilter : Record → Bool
  | filter _ _ => true
  | _ => false

end Record

namespace Setting

variable (c) {keep : Record → Bool}

theorem filter_told_of_pos {event : Event} (h : ∀ origin, keep (.event origin event) = true) :
    (c.told event).filter keep = c.told event := by
  rw [List.filter_eq_self]
  intro record hrecord
  rcases List.mem_map.mp hrecord with ⟨hook, _, rfl⟩
  exact h hook.origin

theorem filter_told_of_neg {event : Event} (h : ∀ origin, keep (.event origin event) = false) :
    (c.told event).filter keep = [] := by
  rw [List.filter_eq_nil_iff]
  intro record hrecord
  rcases List.mem_map.mp hrecord with ⟨hook, _, rfl⟩
  exact Bool.eq_false_iff.mp (h hook.origin)

theorem filter_due_isStep (context : StepContext) :
    (c.due context).filter Record.isStep = c.due context := by
  rw [List.filter_eq_self]
  intro record hrecord
  rcases List.mem_map.mp hrecord with ⟨rule, _, rfl⟩
  rfl

theorem filter_due_of_neg (context : StepContext)
    (h : ∀ origin, keep (.step origin context) = false) : (c.due context).filter keep = [] := by
  rw [List.filter_eq_nil_iff]
  intro record hrecord
  rcases List.mem_map.mp hrecord with ⟨rule, _, rfl⟩
  exact Bool.eq_false_iff.mp (h rule.hook.origin)

/-- Listeners for iterations, or nothing at all. -/
theorem iterated_eq (i : Instruction) :
    c.iterated i = [] ∨ ∃ iteration, c.iterated i = c.told (.arrayIter iteration) := by
  unfold iterated
  split
  · split
    · exact .inr ⟨_, rfl⟩
    · exact .inl rfl
  · exact .inl rfl

theorem filter_iterated_of_neg (i : Instruction)
    (hkeep : ∀ origin iteration, keep (.event origin (.arrayIter iteration)) = false) :
    (c.iterated i).filter keep = [] := by
  rcases c.iterated_eq i with h | ⟨iteration, h⟩
  · rw [h, List.filter_nil]
  · rw [h]
    exact c.filter_told_of_neg fun origin => hkeep origin iteration

theorem filter_iterated_isIteration (i : Instruction) :
    (c.iterated i).filter Record.isIteration = c.iterated i := by
  rcases c.iterated_eq i with h | ⟨iteration, h⟩
  · rw [h, List.filter_nil]
  · rw [h]
    exact c.filter_told_of_pos fun _ => rfl

end Setting

namespace Filtering

variable {machine text result : String} {hooks : List (Hook σ String Filtered)}
  {calls : List Record}

theorem filter_eq_nil {keep : Record → Bool}
    (hkeep : ∀ origin text, keep (.filter origin text) = false)
    (h : Filtering machine hooks text calls result) : calls.filter keep = [] := by
  induction h with
  | done text => rfl
  | next _ _ ih => rw [List.filter_cons_of_neg (Bool.eq_false_iff.mp (hkeep _ _)), ih]

theorem filter_isFilter (h : Filtering machine hooks text calls result) :
    calls.filter Record.isFilter = calls := by
  induction h with
  | done text => rfl
  | next _ _ ih => rw [List.filter_cons_of_pos rfl, ih]

end Filtering

namespace Episode

variable {episode : Episode} {episodes : List Episode}

theorem Fits.filter_isStep (h : episode.Fits c) :
    (episode.records c).filter Record.isStep =
      episode.entry?.toList.flatMap fun entry => c.due entry.context := by
  cases h with
  | told => exact c.filter_told_of_neg fun _ => rfl
  | step entry =>
      rw [records, List.filter_cons_of_neg Bool.false_ne_true, List.filter_append,
        c.filter_due_isStep, c.filter_iterated_of_neg _ fun _ _ => rfl, List.append_nil]
      exact (List.flatMap_singleton (fun entry => c.due entry.context) entry).symm
  | call =>
      rw [records, List.filter_append, c.filter_told_of_neg fun _ => rfl]
      rfl
  | opened => rfl
  | filtered h => exact h.filter_eq_nil fun _ _ => rfl
  | wrote text => rfl

theorem Fits.filter_isIteration (h : episode.Fits c) :
    (episode.records c).filter Record.isIteration =
      episode.entry?.toList.flatMap fun entry => c.iterated entry.instruction := by
  cases h with
  | @told event _ hiter =>
      refine c.filter_told_of_neg fun _ => ?_
      cases event with
      | arrayIter iteration => exact absurd rfl hiter
      | _ => rfl
  | step entry =>
      rw [records, List.filter_cons_of_neg Bool.false_ne_true, List.filter_append,
        c.filter_due_of_neg _ fun _ => rfl, c.filter_iterated_isIteration, List.nil_append]
      exact (List.flatMap_singleton (fun entry => c.iterated entry.instruction) entry).symm
  | call =>
      rw [records, List.filter_append, c.filter_told_of_neg fun _ => rfl]
      rfl
  | opened => rfl
  | filtered h => exact h.filter_eq_nil fun _ _ => rfl
  | wrote text => rfl

/-- A macro call, and the frame that is opened for it. -/
def call? : Episode → Option (MacroCall × FrameId)
  | call macroCall frame => some (macroCall, frame.id)
  | _ => none

theorem Fits.filter_isMacroCall (h : episode.Fits c) :
    (episode.records c).filter Record.isMacroCall =
      episode.call?.toList.flatMap fun (m, id) =>
        c.told (.macroCall m) ++ [.opened (.ofCall m.span m.name id m.pattern)] := by
  cases h with
  | @told event hcall _ =>
      refine c.filter_told_of_neg fun _ => ?_
      cases event with
      | macroCall m => exact absurd rfl hcall
      | _ => rfl
  | step entry =>
      rw [records, List.filter_cons_of_neg Bool.false_ne_true, List.filter_append,
        c.filter_due_of_neg _ fun _ => rfl, c.filter_iterated_of_neg _ fun _ _ => rfl]
      rfl
  | call m id =>
      rw [records, List.filter_append, c.filter_told_of_pos fun _ => rfl]
      exact (List.append_nil _).symm
  | @opened frame hkind =>
      rw [records, List.filter_cons_of_neg (by simpa [Record.isMacroCall] using hkind)]
      rfl
  | filtered h => exact h.filter_eq_nil fun _ _ => rfl
  | wrote text => rfl

/-- A text that goes through the filters, and their calls. -/
def pass? : Episode → Option (String × List Record)
  | filtered text calls _ => some (text, calls)
  | _ => none

theorem Fits.filter_isFilter (h : episode.Fits c) :
    (episode.records c).filter Record.isFilter = episode.pass?.toList.flatMap Prod.snd := by
  cases h with
  | told => exact c.filter_told_of_neg fun _ => rfl
  | step entry =>
      rw [records, List.filter_cons_of_neg Bool.false_ne_true, List.filter_append,
        c.filter_due_of_neg _ fun _ => rfl, c.filter_iterated_of_neg _ fun _ _ => rfl]
      rfl
  | call =>
      rw [records, List.filter_append, c.filter_told_of_neg fun _ => rfl]
      rfl
  | opened => rfl
  | filtered h => exact h.filter_isFilter.trans (List.append_nil _).symm
  | wrote text => rfl

theorem Fits.filtering (h : episode.Fits c) {pass : String × List Record}
    (hpass : episode.pass? = some pass) :
    ∃ result, Filtering c.machine c.registry.filters pass.1 pass.2 result := by
  cases h with
  | filtered h =>
      cases hpass
      exact ⟨_, h⟩
  | _ => cases hpass

theorem map_pass?_fst (episodes : List Episode) :
    (episodes.filterMap pass?).map Prod.fst = episodes.filterMap text? := by
  rw [List.map_filterMap]
  congr 1
  funext episode
  cases episode <;> rfl

/-- Records that only episodes of one sort have are those of these episodes. -/
theorem filter_flatMap_records {γ : Type} {keep : Record → Bool} {part? : Episode → Option γ}
    {g : γ → List Record} (hfits : ∀ episode ∈ episodes, episode.Fits c)
    (hkeep : ∀ episode : Episode, episode.Fits c →
      (episode.records c).filter keep = (part? episode).toList.flatMap g) :
    (episodes.flatMap (records c)).filter keep = (episodes.filterMap part?).flatMap g := by
  induction episodes with
  | nil => rfl
  | cons episode episodes ih =>
      rcases List.forall_mem_cons.mp hfits with ⟨hepisode, hfits⟩
      rw [List.flatMap_cons, List.filter_append, ih hfits, hkeep episode hepisode,
        List.filterMap_cons]
      cases part? episode with
      | none => rfl
      | some part => simp

end Episode

namespace Agenda

/-- No step is left to be taken. -/
def Stops (c : Setting σ) (macros : MacroTable) (tasks : List Task) (s : State σ) : Prop :=
  tasks = [] ∨ ∃ task rest x s', tasks = task :: rest ∧ task.Fails c macros s x s'

end Agenda

namespace Program

/-! ## What follows a task -/

theorem step_of_undisturbed (h : p.Undisturbed c world)
    (hreaches : p.Reaches c world (task :: rest) s)
    (hfails : ∀ x s', task.Fails c p.macros s x s' → ∃ point e, x = .handler point e) :
    ∃ new s', task.Steps c p.macros s new s' ∧ p.Reaches c world (new ++ rest) s' := by
  rcases Task.steps_or_fails c p.macros task s with ⟨new, s', hstep⟩ | ⟨x, s', hfail⟩
  · exact ⟨new, s', hstep, hreaches.trans (.step hstep (.refl _ _))⟩
  · rcases hfails x s' hfail with ⟨point, e, rfl⟩
    exact absurd ⟨task, rest, s, hreaches, hfail⟩ (h.run point e s')

theorem reaches_of_announce (h : p.Undisturbed c world) {event : Event}
    (hreaches : p.Reaches c world (.announce event :: rest) s) :
    ∃ host, p.Reaches c world rest { s with host := host } ∧
      host.journal.toList = s.host.journal.toList ++ c.told event := by
  rcases step_of_undisturbed h hreaches (fun x s' hfails => by
    cases hfails with
    | announce _ => exact ⟨_, _, rfl⟩) with ⟨new, s', hstep, hnext⟩
  cases hstep with
  | announce hemit => exact ⟨_, hnext, Setting.journal_of_emit hemit⟩

theorem reaches_of_log (h : p.Undisturbed c world) {i : Instruction}
    (hreaches : p.Reaches c world (.log i :: rest) s) :
    ∃ host, p.Reaches c world rest { s.logged c.verbose i with host := host } ∧
      host.journal.toList =
        s.host.journal.toList ++ .logged s.log.size :: c.due (s.context i) := by
  have hlogged : p.Reaches c world (.rules (s.context i) :: rest) (s.logged c.verbose i) :=
    hreaches.trans (.step (.log i s) (.refl _ _))
  rcases step_of_undisturbed h hlogged (fun x s' hfails => by
    cases hfails with
    | rules _ => exact ⟨_, _, rfl⟩) with ⟨new, s', hstep, hnext⟩
  cases hstep with
  | rules hrules =>
      refine ⟨_, hnext, ?_⟩
      rw [Setting.journal_of_afterStep hrules, State.logged, Host.note, Array.toList_push,
        List.append_assoc]
      rfl

theorem reaches_of_enter (h : p.Undisturbed c world) {depth : Nat} {span : Option Span}
    {m : Macro} {text : String} {outer : List String}
    (hreaches : p.Reaches c world (.enter depth span m :: rest) s)
    (hcaptures : s.captures = text :: outer) :
    ∃ host, p.Reaches c world (.fragment depth m.body :: rest)
        { s with
          captures := outer, frameCount := s.frameCount + 1,
          frames := s.calling span m text :: s.frames, host := host } ∧
      host.journal.toList = s.host.journal.toList ++
        (c.told (.macroCall ⟨m.name, m.block, span, text⟩) ++
          [.opened (s.calling span m text)]) := by
  have hcalling : p.Reaches c world
      (.announce (.macroCall ⟨m.name, m.block, span, text⟩) :: .invoke depth span m text :: rest)
      { s with captures := outer } :=
    hreaches.trans (.step (.enter depth span m hcaptures) (.refl _ _))
  rcases reaches_of_announce h hcalling with ⟨host, htold, hjournal⟩
  refine ⟨_, htold.trans (.step (.invoke depth span m text _) (.refl _ _)), ?_⟩
  rw [Host.note, Array.toList_push, hjournal, List.append_assoc]
  rfl

theorem reaches_of_write (h : p.Undisturbed c world) {text : String}
    (hreaches : p.Reaches c world (.write text :: rest) s) (hcaptures : s.captures = []) :
    ∃ calls result host, Filtering c.machine c.registry.filters text calls result ∧
      p.Reaches c world (.deliver result :: rest) { s with host := host } ∧
      host.journal.toList = s.host.journal.toList ++ calls := by
  have hfilter : p.Reaches c world (.filter text :: rest) s :=
    hreaches.trans (.step (.write text hcaptures) (.refl _ _))
  rcases step_of_undisturbed h hfilter (fun x s' hfails => by
    cases hfails with
    | filter _ => exact ⟨_, _, rfl⟩) with ⟨new, s', hstep, hnext⟩
  cases hstep with
  | filter hfiltered =>
      rcases Setting.filtering_of_filterWith hfiltered with ⟨calls, hfiltering, hjournal⟩
      exact ⟨calls, _, _, hfiltering, hnext, hjournal⟩

/-! ## Runs -/

/-- The run consists of these episodes. -/
structure Consists (p : Program) (c : Setting σ) (world : σ) (episodes : List Episode) :
    Prop where
  journal : (p.run c world).state.host.journal.toList = episodes.flatMap (Episode.records c)
  log : (p.run c world).state.log.toList = episodes.filterMap Episode.entry?
  fits : ∀ episode ∈ episodes, episode.Fits c
  /-- The texts that go through the filters are those that are emitted, from the first task
  to the last, while no capture is open. -/
  texts : ∃ tasks s, Agenda.Stops c p.macros tasks s ∧
    Agenda.Emits c p.macros p.agenda (State.initial world) (episodes.filterMap Episode.text?)
      tasks s

/-- The hooks of a run are called when they should be, and at no other time. -/
structure CallsHooks (p : Program) (c : Setting σ) (world : σ) : Prop where
  episodes : ∃ episodes, p.Consists c world episodes
  rules : (p.run c world).state.host.journal.toList.filter Record.isStep =
    (p.run c world).state.log.toList.flatMap fun entry => c.due entry.context
  listeners : (p.run c world).state.host.journal.toList.filter Record.isIteration =
    (p.run c world).state.log.toList.flatMap fun entry => c.iterated entry.instruction
  frames : ∃ calls : List (MacroCall × FrameId),
    (p.run c world).state.host.journal.toList.filter Record.isMacroCall =
      calls.flatMap fun (m, id) =>
        c.told (.macroCall m) ++ [.opened (.ofCall m.span m.name id m.pattern)]
  /-- Each text that is emitted while no capture is open goes through the filters once. -/
  filters : ∃ passes : List (String × List Record),
    (p.run c world).state.host.journal.toList.filter Record.isFilter =
      passes.flatMap Prod.snd ∧
    (∀ pass ∈ passes, ∃ result,
      Filtering c.machine c.registry.filters pass.1 pass.2 result) ∧
    ∃ tasks s, Agenda.Stops c p.macros tasks s ∧
      Agenda.Emits c p.macros p.agenda (State.initial world) (passes.map Prod.fst) tasks s
  /-- The rules are called when the step is logged, and nothing else has changed then. -/
  steps : ∀ i rest s, p.Reaches c world (.log i :: rest) s →
    ∃ host, p.Reaches c world rest { s.logged c.verbose i with host := host } ∧
      host.journal.toList =
        s.host.journal.toList ++ .logged s.log.size :: c.due (s.context i)
  /-- The listeners for an iteration are told of all items, before any of them. -/
  iterations : ∀ depth opening array body rest s items,
    p.Reaches c world (.loop depth opening array body :: rest) s →
    c.environment.findArray array = some items →
    ∃ host, p.Reaches c world (.items depth array opening body 0 items :: rest)
        { s with host := host } ∧
      host.journal.toList =
        s.host.journal.toList ++ c.told (.arrayIter ⟨array, items, opening⟩)
  /-- The listeners for a macro call are told of the text that the next frame holds. -/
  calls : ∀ depth span m rest s text outer,
    p.Reaches c world (.enter depth span m :: rest) s → s.captures = text :: outer →
    ∃ host, p.Reaches c world (.fragment depth m.body :: rest)
        { s with
          captures := outer, frameCount := s.frameCount + 1,
          frames := s.calling span m text :: s.frames, host := host } ∧
      host.journal.toList = s.host.journal.toList ++
        (c.told (.macroCall ⟨m.name, m.block, span, text⟩) ++
          [.opened (s.calling span m text)])
  /-- A text that leaves the machine goes through the filters before the sink may refuse it. -/
  emitted : ∀ text rest s, p.Reaches c world (.write text :: rest) s → s.captures = [] →
    ∃ calls result host, Filtering c.machine c.registry.filters text calls result ∧
      p.Reaches c world (.deliver result :: rest) { s with host := host } ∧
      host.journal.toList = s.host.journal.toList ++ calls
  /-- A text that is captured does not. -/
  captured : ∀ text rest s innermost outer, p.Reaches c world (.write text :: rest) s →
    s.captures = innermost :: outer →
    p.Reaches c world rest { s with captures := (innermost ++ text) :: outer }

/-- What is raised is reported to all listeners for errors. -/
theorem told_of_raises (h : p.Undisturbed c world) {x : Failure} (hraises : p.Raises c world x s) :
    ∃ host, (p.run c world).state = { s with host := host } ∧
      host.journal.toList = s.host.journal.toList ++
        c.told (.onError ((x.error s.lastSpan).stamp s.lastIndex)) := by
  rcases Outcome.reports_iff.mp (reports_of_raises hraises) with
    ⟨host, hemit, hrun⟩ | ⟨failure, host, hemit, _⟩
  · rw [hrun]
    exact ⟨host, rfl, Setting.journal_of_emit hemit⟩
  · exact absurd hemit (h.report x s _ _ hraises)

theorem consists_of_run (h : p.Undisturbed c world) : ∃ episodes, p.Consists c world episodes := by
  rcases completes_or_raises p c world with ⟨s, hreaches⟩ | ⟨x, s', hraises⟩
  · rcases phase_of_reaches hreaches with
      ⟨owed, episodes, texts, hphase, hrecorded, hemits, htexts⟩
    have howed : owed = [] := by
      cases hphase
      rfl
    have hjournal := hrecorded.journal
    rw [howed, List.append_nil, List.append_nil] at hjournal
    rw [Waiting.nil.awaiting, List.append_nil] at htexts
    rw [← htexts] at hemits
    have hrun := run_of_reaches hreaches
    refine ⟨episodes, ?_, ?_, hrecorded.fits, [], s, .inl rfl, hemits⟩
    · rw [hrun]
      exact hjournal
    · rw [hrun]
      exact hrecorded.log
  · have hx : ∀ point e, x ≠ .handler point e := by
      rintro point e rfl
      exact h.run point e s' hraises
    rcases told_of_raises h hraises with ⟨host, hstate, htold⟩
    rcases hraises with ⟨task, rest, s, hleads, hfails⟩
    rcases phase_of_reaches hleads with
      ⟨owed, episodes, texts, hphase, hrecorded, hemits, htexts⟩
    rcases hphase.settled_of_fails hfails hx with ⟨rfl, hawaiting, rfl⟩
    have hjournal := hrecorded.journal
    rw [List.append_nil, List.append_nil] at hjournal
    rw [hawaiting, List.append_nil] at htexts
    rw [← htexts] at hemits
    -- the report is an episode of its own, after all others
    refine ⟨episodes ++ [.told (.onError ((x.error s'.lastSpan).stamp s'.lastIndex))], ?_, ?_, ?_,
      task :: rest, s', .inr ⟨task, rest, x, s', rfl, hfails⟩, ?_⟩
    · rw [hstate, List.flatMap_append, List.flatMap_singleton]
      exact htold.trans (congrArg (· ++ _) hjournal)
    · rw [hstate, List.filterMap_append]
      exact hrecorded.log.trans (List.append_nil _).symm
    · refine List.forall_mem_append.mpr ⟨hrecorded.fits, List.forall_mem_singleton.mpr ?_⟩
      exact .told EventKind.noConfusion EventKind.noConfusion
    · rw [List.filterMap_append]
      exact (List.append_nil (episodes.filterMap Episode.text?)).symm ▸ hemits

/-- Whatever the outcome of a run, if no hook fails in it, hooks are called exactly when
they should be. -/
theorem calls_hooks_exactly (p : Program) (c : Setting σ) (world : σ)
    (h : p.Undisturbed c world) : p.CallsHooks c world := by
  rcases consists_of_run h with ⟨episodes, hconsists⟩
  constructor
  case episodes => exact ⟨episodes, hconsists⟩
  case rules =>
    rw [hconsists.journal, hconsists.log]
    exact Episode.filter_flatMap_records hconsists.fits fun _ hfits => hfits.filter_isStep
  case listeners =>
    rw [hconsists.journal, hconsists.log]
    exact Episode.filter_flatMap_records hconsists.fits fun _ hfits => hfits.filter_isIteration
  case frames =>
    rw [hconsists.journal]
    exact ⟨_, Episode.filter_flatMap_records hconsists.fits fun _ hfits =>
      hfits.filter_isMacroCall⟩
  case filters =>
    refine ⟨episodes.filterMap Episode.pass?, ?_, ?_, ?_⟩
    · rw [hconsists.journal]
      exact Episode.filter_flatMap_records hconsists.fits fun _ hfits => hfits.filter_isFilter
    · intro pass hmem
      rcases List.mem_filterMap.mp hmem with ⟨episode, hepisode, hpass⟩
      exact (hconsists.fits episode hepisode).filtering hpass
    · rw [Episode.map_pass?_fst]
      exact hconsists.texts
  case steps => exact fun _ _ _ hreaches => reaches_of_log h hreaches
  case iterations =>
    intro depth opening array body rest s items hreaches hitems
    exact reaches_of_announce h
      (hreaches.trans (.step (.loop depth opening body s hitems) (.refl _ _)))
  case calls => exact fun _ _ _ _ _ _ _ hreaches hcaptures => reaches_of_enter h hreaches hcaptures
  case emitted => exact fun _ _ _ hreaches hcaptures => reaches_of_write h hreaches hcaptures
  case captured =>
    intro text rest s innermost outer hreaches hcaptures
    exact hreaches.trans (.step (.capture hcaptures) (.refl _ _))

/-- A listener of every kind, a rule for every second step and a filter, in a run that fails
at its end. -/
theorem calls_hooks_around_failure :
    let c : Setting Nat :=
      ⟨"m", ⟨[], [("a", ["1", "2"])]⟩,
        ⟨fun _ => [⟨0, ⟨"counter", none⟩, fun _ _ world => .ok () (world + 1)⟩],
          [⟨2, ⟨0, ⟨"rule", none⟩, fun _ _ world => .ok () (world + 1)⟩⟩],
          [⟨0, ⟨"filter", none⟩, fun _ text world => .ok (.text text) (world + 1)⟩]⟩,
        Sink.accepting, true⟩
    let source := "x\x7b\x7b a[:] | ?m; @m \"$(_item_)!\" | \"$(_)\"; u \x7d\x7d"
    ∃ p, compile source = .ok p ∧ p.Undisturbed c 0 ∧ p.CallsHooks c 0 ∧
      (p.run c 0).error.map RuntimeError.cause = some (.undefinedVariable "u") ∧
      ((p.run c 0).state.host.journal.toList.filter Record.isStep).length = 7 ∧
      ((p.run c 0).state.host.journal.toList.filter Record.isIteration).length = 1 ∧
      ((p.run c 0).state.host.journal.toList.filter Record.isMacroCall).length = 4 ∧
      ((p.run c 0).state.host.journal.toList.filter Record.isFilter).length = 3 := by
  intro c source
  have hfails : (compile source).map
      (fun p => (p.run c 0).error.map RuntimeError.cause) =
      .ok (some (.undefinedVariable "u")) := by
    decide +kernel
  have hcounts : (compile source).map (fun p =>
      [Record.isStep, Record.isIteration, Record.isMacroCall, Record.isFilter].map fun keep =>
        ((p.run c 0).state.host.journal.toList.filter keep).length) = .ok [7, 1, 4, 3] := by
    decide +kernel
  have hthrows : ∀ point e, ¬c.registry.Throws c.machine point e := by
    intro point e
    cases point <;>
      simp [Registry.Throws, Hook.Throws, Hook.Misfilters, c]
  cases hcompile : compile source with
  | error e =>
      rw [hcompile] at hfails
      cases hfails
  | ok p =>
      rw [hcompile] at hfails hcounts
      have hundisturbed : p.Undisturbed c 0 := undisturbed_of_not_throws hthrows
      rcases List.cons.inj (Except.ok.inj hcounts) with ⟨hsteps, hcounts⟩
      rcases List.cons.inj hcounts with ⟨hiterations, hcounts⟩
      rcases List.cons.inj hcounts with ⟨hcalls, hcounts⟩
      exact ⟨p, rfl, hundisturbed, calls_hooks_exactly p c 0 hundisturbed,
        Except.ok.inj hfails, hsteps, hiterations, hcalls, (List.cons.inj hcounts).1⟩

end Program

end Stencil
