import Stencil.Proofs.Growth

/-!
# The journal, episode by episode

A run consists of episodes, and each is recorded as a whole: a step, with the rules that
are due and, if it begins an iteration, its listeners; a macro call, with its listeners and
the frame that is opened; any other frame; a text that leaves the machine, with the filters
it goes through; a chunk that is written.

While a run is inside of an episode, some records are still owed.  What is owed can be told
from the tasks that are left, since the tasks of an episode stand in front of all others.
-/

namespace Stencil

variable {σ : Type}

/-! ## Calls of hooks -/

namespace Setting

variable (c : Setting σ)

/-- The calls of all listeners of an event. -/
def told (event : Event) : List Record :=
  (c.registry.listeners event.kind).map fun hook => .event hook.origin event

/-- The calls of the step rules whose period divides the index of the step, in the order of
their registration. -/
def due (context : StepContext) : List Record :=
  (c.registry.stepRules.filter fun rule => rule.every ∣ context.index).map fun rule =>
    .step rule.hook.origin context

/-- The calls that come of an instruction by itself: those of the listeners for iterations,
if it begins one over an array that exists. -/
def iterated (i : Instruction) : List Record :=
  match i.operation with
  | .beginArrayIter array =>
      match c.environment.findArray array with
      | some items => c.told (.arrayIter ⟨array, items, i.span⟩)
      | none => []
  | _ => []

end Setting

/-- A text goes through filters: each is called once, with what the one before it gave. -/
inductive Filtering (machine : String) :
    List (Hook σ String Filtered) → String → List Record → String → Prop where
  | done (text : String) : Filtering machine [] text [] text
  | next {hook : Hook σ String Filtered} {hooks : List (Hook σ String Filtered)}
      {text given result : String} {calls : List Record} {world world' : σ}
      (hgives : hook.handler machine text world = .ok (.text given) world')
      (hrest : Filtering machine hooks given calls result) :
      Filtering machine (hook :: hooks) text (.filter hook.origin text :: calls) result

theorem Hook.journal_of_call {α β : Type} {machine : String} {record : Origin → Record}
    {hook : Hook σ α β} {a : α} {b : β} {host host' : Host σ}
    (h : hook.call machine record a host = .ok b host') :
    host'.journal.toList = host.journal.toList ++ [record hook.origin] := by
  simp only [call] at h
  split at h
  · cases h
    exact Array.toList_push
  · cases h

namespace HostM

variable {α β : Type} {host host' : Host σ}

theorem ok_of_bind {m : HostM σ α} {k : α → HostM σ β} {b : β}
    (h : (m >>= k) host = .ok b host') :
    ∃ a between, m host = .ok a between ∧ k a between = .ok b host' := by
  change EStateM.bind m k host = _ at h
  rw [EStateM.bind] at h
  split at h
  · rename_i a between hm
    exact ⟨a, between, hm, h⟩
  · cases h

theorem journal_of_forM {f : α → HostM σ Unit} {g : α → List Record} {as : List α}
    (hf : ∀ a host host', f a host = .ok () host' →
      host'.journal.toList = host.journal.toList ++ g a)
    (h : as.forM f host = .ok () host') :
    host'.journal.toList = host.journal.toList ++ as.flatMap g := by
  induction as generalizing host with
  | nil =>
      cases h
      exact (List.append_nil _).symm
  | cons a as ih =>
      rcases ok_of_bind h with ⟨_, between, hhead, hrest⟩
      rw [ih hrest, hf a host between hhead, List.append_assoc, List.flatMap_cons]

end HostM

namespace Setting

variable {c : Setting σ} {host host' : Host σ}

theorem journal_of_emit {event : Event}
    (h : c.registry.emit c.machine event host = .ok () host') :
    host'.journal.toList = host.journal.toList ++ c.told event := by
  rw [told, List.map_eq_flatMap]
  exact HostM.journal_of_forM (fun hook host host' hcall => Hook.journal_of_call hcall) h

theorem journal_of_afterStep {context : StepContext}
    (h : c.registry.afterStep c.machine context host = .ok () host') :
    host'.journal.toList = host.journal.toList ++ c.due context := by
  have hjournal := HostM.journal_of_forM
    (g := fun rule => if rule.every ∣ context.index then [.step rule.hook.origin context] else [])
    (fun rule host host' hrule => by
      split at hrule
      · rename_i hmod
        rw [if_pos (Nat.dvd_of_mod_eq_zero hmod)]
        exact Hook.journal_of_call hrule
      · rename_i hmod
        rw [if_neg (fun hdvd => hmod (Nat.mod_eq_zero_of_dvd hdvd))]
        cases hrule
        exact (List.append_nil _).symm) h
  rw [hjournal, due]
  congr 1
  induction c.registry.stepRules with
  | nil => rfl
  | cons rule rules ih =>
      rw [List.flatMap_cons, ih, List.filter_cons]
      by_cases hdvd : rule.every ∣ context.index
      · simp [hdvd]
      · simp [hdvd]

theorem filtering_of_filterWith {hooks : List (Hook σ String Filtered)} {text result : String}
    (h : Registry.filterWith c.machine hooks text host = .ok result host') :
    ∃ calls, Filtering c.machine hooks text calls result ∧
      host'.journal.toList = host.journal.toList ++ calls := by
  induction hooks generalizing text host with
  | nil =>
      cases h
      exact ⟨[], .done _, (List.append_nil _).symm⟩
  | cons hook hooks ih =>
      rcases HostM.ok_of_bind h with ⟨filtered, between, hcall, hrest⟩
      cases filtered with
      | foreign typeName => cases hrest
      | text given =>
          rcases Hook.handler_of_call hcall with ⟨world, world', hgives⟩
          rcases ih hrest with ⟨calls, hfiltering, hjournal⟩
          refine ⟨_, .next hgives hfiltering, ?_⟩
          rw [hjournal, Hook.journal_of_call hcall, List.append_assoc]
          rfl

end Setting

/-! ## Episodes -/

namespace LogEntry

/-- What the rules are told of the step. -/
def context (entry : LogEntry) : StepContext :=
  ⟨entry.index, entry.instruction.opcode, entry.span, some entry.frame⟩

end LogEntry

inductive Episode where
  /-- The listeners are told that the program starts or ends, or of an error. -/
  | told (event : Event)
  | step (entry : LogEntry)
  | call (macroCall : MacroCall) (frame : Frame)
  /-- Any other frame is opened. -/
  | opened (frame : Frame)
  | filtered (text : String) (calls : List Record) (result : String)
  | wrote (text : String)

namespace Episode

/-- What the journal has of an episode. -/
def records (c : Setting σ) : Episode → List Record
  | told event => c.told event
  | step entry => .logged entry.index :: (c.due entry.context ++ c.iterated entry.instruction)
  | call macroCall frame => c.told (.macroCall macroCall) ++ [.opened frame]
  | opened frame => [.opened frame]
  | filtered _ calls _ => calls
  | wrote text => [.write text]

/-- What the log has of it. -/
def entry? : Episode → Option LogEntry
  | step entry => some entry
  | _ => none

/-- The text that goes through the filters. -/
def text? : Episode → Option String
  | filtered text _ _ => some text
  | _ => none

/-- The frame of a call holds the text that the listeners are told of, and what the filters
give comes of the text. -/
inductive Fits (c : Setting σ) : Episode → Prop where
  | told {event : Event} (hcall : event.kind ≠ .macroCall) (hiter : event.kind ≠ .arrayIter) :
      Fits c (.told event)
  | step (entry : LogEntry) : Fits c (.step entry)
  | call (macroCall : MacroCall) (id : FrameId) :
      Fits c (.call macroCall
        (.ofCall macroCall.span macroCall.name id macroCall.pattern))
  | opened {frame : Frame} (hkind : frame.kind ≠ .call) : Fits c (.opened frame)
  | filtered {text result : String} {calls : List Record}
      (h : Filtering c.machine c.registry.filters text calls result) :
      Fits c (.filtered text calls result)
  | wrote (text : String) : Fits c (.wrote text)

end Episode

/-! ## Tasks that wait -/

namespace Task

/-- The task executes the instruction, which is logged before. -/
inductive Executes : Task → Instruction → Prop where
  | perform (depth : Nat) (span : Option Span) (action : Action) :
      Executes (perform depth span action) (.of action span)
  | loop (depth : Nat) (opening : Option Span) (array : String) (body : Code) :
      Executes (loop depth opening array body) ⟨.beginArrayIter array, opening⟩

/-- The task may stand anywhere, as it is about no instruction that was begun. -/
def Rests : Task → Prop
  | announce event => event.kind ≠ .macroCall ∧ event.kind ≠ .arrayIter
  | log _ | rules _ | filter _ | perform _ _ _ | loop _ _ _ _ | invoke _ _ _ _ => False
  | _ => True

end Task

/-- Tasks of which no instruction was begun: whatever executes an instruction stands right
behind the task that logs it. -/
inductive Waiting : List Task → Prop where
  | nil : Waiting []
  | rests {task : Task} {rest : List Task} (htask : task.Rests) (hrest : Waiting rest) :
      Waiting (task :: rest)
  | step {task : Task} {i : Instruction} {rest : List Task} (htask : task.Executes i)
      (hrest : Waiting rest) : Waiting (.log i :: task :: rest)
  | closing (span : Option Span) {rest : List Task} (hrest : Waiting rest) :
      Waiting (.log ⟨.endArrayIter, span⟩ :: rest)

/-- The last step in the log is of this instruction, and of the innermost frame. -/
def State.Logged (s : State σ) (i : Instruction) : Prop :=
  ∃ entry, s.log.back? = some entry ∧ entry.instruction = i ∧ entry.frame = s.frame

/-- The frame of a call that is about to be opened. -/
def State.calling (s : State σ) (span : Option Span) (m : Macro) (text : String) : Frame :=
  .ofCall span m.name (.numbered (s.frameCount + 1)) text

/-- Where in an episode a run is, and the records that are owed for it. -/
inductive Phase (c : Setting σ) : List Record → List Task → State σ → Prop where
  | waiting {tasks : List Task} (s : State σ) (h : Waiting tasks) : Phase c [] tasks s
  | ruling {s : State σ} {i : Instruction} {task : Task} {rest : List Task}
      (context : StepContext) (hlogged : s.Logged i) (htask : task.Executes i)
      (hrest : Waiting rest) :
      Phase c (c.due context ++ c.iterated i) (.rules context :: task :: rest) s
  | closing (s : State σ) (context : StepContext) {rest : List Task} (hrest : Waiting rest) :
      Phase c (c.due context) (.rules context :: rest) s
  | executing {s : State σ} {i : Instruction} {task : Task} {rest : List Task}
      (hlogged : s.Logged i) (htask : task.Executes i) (hrest : Waiting rest) :
      Phase c (c.iterated i) (task :: rest) s
  | telling (s : State σ) (iteration : ArrayIter) {rest : List Task} (hrest : Waiting rest) :
      Phase c (c.told (.arrayIter iteration)) (.announce (.arrayIter iteration) :: rest) s
  | calling (s : State σ) (depth : Nat) (span : Option Span) (m : Macro) (text : String)
      {rest : List Task} (hrest : Waiting rest) :
      Phase c
        (c.told (.macroCall ⟨m.name, m.block, span, text⟩) ++ [.opened (s.calling span m text)])
        (.announce (.macroCall ⟨m.name, m.block, span, text⟩) :: .invoke depth span m text :: rest)
        s
  | invoking (s : State σ) (depth : Nat) (span : Option Span) (m : Macro) (text : String)
      {rest : List Task} (hrest : Waiting rest) :
      Phase c [.opened (s.calling span m text)] (.invoke depth span m text :: rest) s
  | filtering (s : State σ) (text : String) {rest : List Task} (hrest : Waiting rest) :
      Phase c [] (.filter text :: rest) s

/-- The text that is on its way to the filters. -/
def awaiting : List Task → List String
  | .filter text :: _ => [text]
  | _ => []

theorem Waiting.awaiting {tasks : List Task} (h : Waiting tasks) : awaiting tasks = [] := by
  cases h with
  | nil => rfl
  | @rests task rest htask _ =>
      cases task with
      | filter text => exact htask.elim
      | _ => rfl
  | step _ _ => rfl
  | closing span _ => rfl

/-- A list of tasks that rest, in front of others that wait. -/
theorem Waiting.prepend {tasks rest : List Task} (htasks : ∀ task ∈ tasks, task.Rests)
    (hrest : Waiting rest) : Waiting (tasks ++ rest) := by
  induction tasks with
  | nil => exact hrest
  | cons task tasks ih =>
      rcases List.forall_mem_cons.mp htasks with ⟨htask, htasks⟩
      exact .rests htask (ih htasks)

/-! ## Steps -/

/-- The text that a task emits while no capture is open. -/
def Task.emits (s : State σ) : Task → List String
  | .write text => if s.captures = [] then [text] else []
  | _ => []

/-- Between two states some episodes were begun, and all of them were recorded but for what
is owed. -/
structure Recorded (c : Setting σ) (owed : List Record) (s : State σ) (episodes : List Episode)
    (owed' : List Record) (s' : State σ) : Prop where
  journal : s'.host.journal.toList ++ owed' =
    s.host.journal.toList ++ owed ++ episodes.flatMap (Episode.records c)
  log : s'.log.toList = s.log.toList ++ episodes.filterMap Episode.entry?
  fits : ∀ episode ∈ episodes, episode.Fits c

namespace Recorded

variable {c : Setting σ} {owed owed' owed'' : List Record} {s s' s'' : State σ}
  {episodes episodes' : List Episode}

/-- Nothing begins, and what is recorded was owed. -/
theorem silent (hlog : s'.log = s.log)
    (hjournal : s'.host.journal.toList ++ owed' = s.host.journal.toList ++ owed) :
    Recorded c owed s [] owed' s' := by
  refine ⟨?_, ?_, fun _ hmem => absurd hmem List.not_mem_nil⟩
  · rw [hjournal, List.flatMap_nil, List.append_nil]
  · rw [hlog, List.filterMap_nil, List.append_nil]

theorem refl (owed : List Record) (s : State σ) : Recorded c owed s [] owed s :=
  silent rfl rfl

theorem trans (h : Recorded c owed s episodes owed' s')
    (h' : Recorded c owed' s' episodes' owed'' s'') :
    Recorded c owed s (episodes ++ episodes') owed'' s'' where
  journal := by rw [h'.journal, h.journal, List.flatMap_append, List.append_assoc]
  log := by rw [h'.log, h.log, List.filterMap_append, List.append_assoc]
  fits := List.forall_mem_append.mpr ⟨h.fits, h'.fits⟩

/-- One episode begins. -/
theorem single {episode : Episode} (hfits : episode.Fits c)
    (hlog : s'.log.toList = s.log.toList ++ [episode].filterMap Episode.entry?)
    (hjournal : s'.host.journal.toList ++ owed' =
      s.host.journal.toList ++ owed ++ episode.records c) :
    Recorded c owed s [episode] owed' s' := by
  refine ⟨?_, hlog, List.forall_mem_singleton.mpr hfits⟩
  rw [hjournal, List.flatMap_singleton]

end Recorded

namespace Phase

variable {c : Setting σ} {macros : MacroTable} {owed : List Record} {s s' : State σ}
  {task : Task} {rest new : List Task}

/-- What a step leads to: another phase, with what was recorded and what was emitted. -/
def Continues (c : Setting σ) (owed : List Record) (tasks : List Task) (s : State σ)
    (texts : List String) (tasks' : List Task) (s' : State σ) : Prop :=
  ∃ owed' episodes, Phase c owed' tasks' s' ∧ Recorded c owed s episodes owed' s' ∧
    episodes.filterMap Episode.text? ++ awaiting tasks' = awaiting tasks ++ texts

/-- A step after which tasks wait, and in which nothing begins. -/
theorem continues_silent {tasks tasks' : List Task} (hwaiting : Waiting tasks')
    (hlog : s'.log = s.log)
    (hjournal : s'.host.journal.toList = s.host.journal.toList ++ owed)
    (hawaiting : awaiting tasks = []) : Continues c owed tasks s [] tasks' s' := by
  refine ⟨[], [], .waiting s' hwaiting, .silent hlog ?_, ?_⟩
  · rw [hjournal, List.append_nil]
  · rw [hwaiting.awaiting, hawaiting]
    rfl

/-- A step after which tasks wait, and which is an episode by itself. -/
theorem continues_single {tasks tasks' : List Task} {episode : Episode}
    (hwaiting : Waiting tasks') (hfits : episode.Fits c) (hlog : s'.log = s.log)
    (hentry : episode.entry? = none)
    (hjournal : s'.host.journal.toList = s.host.journal.toList ++ episode.records c)
    (htext : episode.text?.toList = awaiting tasks) :
    Continues c [] tasks s [] tasks' s' := by
  refine ⟨[], [episode], .waiting s' hwaiting, .single hfits ?_ ?_, ?_⟩
  · rw [hlog, List.filterMap_cons_none hentry, List.filterMap_nil, List.append_nil]
  · rw [hjournal, List.append_nil, List.append_nil]
  · rw [hwaiting.awaiting, ← htext]
    cases h : episode.text? with
    | none => simp [h]
    | some text => simp [h]

theorem continues_of_rests (htask : task.Rests) (hrest : Waiting rest)
    (h : task.Steps c macros s new s') :
    Continues c [] (task :: rest) s (task.emits s) (new ++ rest) s' := by
  have hawaiting : awaiting (task :: rest) = [] := (Waiting.rests htask hrest).awaiting
  cases h with
  | announce h =>
      exact continues_single hrest (.told htask.1 htask.2) rfl rfl (Setting.journal_of_emit h) rfl
  | @capture text innermost outer s h =>
      have hemits : (Task.write text).emits s = [] := by simp [Task.emits, h]
      rw [hemits]
      exact continues_silent hrest rfl (List.append_nil _).symm hawaiting
  | write text h =>
      have hemits : (Task.write text).emits s = [text] := by simp [Task.emits, h]
      rw [hemits]
      exact ⟨[], [], .filtering s text hrest, .refl [] s, rfl⟩
  | @deliver text s h =>
      exact continues_single hrest (.wrote text) rfl rfl Array.toList_push rfl
  | bind name text h => exact continues_silent hrest rfl (List.append_nil _).symm hawaiting
  | leave h => exact continues_silent hrest rfl (List.append_nil _).symm hawaiting
  | noItem => exact continues_silent hrest rfl (List.append_nil _).symm hawaiting
  | item depth array span body index item items s =>
      have hwaiting : Waiting ([.code depth body, .leave,
          .items depth array span body (index + 1) items] ++ rest) :=
        .prepend (by simp [Task.Rests]) hrest
      exact continues_single hwaiting (.opened FrameKind.noConfusion) rfl rfl Array.toList_push rfl
  | done => exact continues_silent hrest rfl (List.append_nil _).symm hawaiting
  | step depth action span rest s =>
      have hlater := @Waiting.rests (.code depth rest) _ trivial hrest
      have hwaiting := Waiting.step (.perform depth span action) hlater
      exact continues_silent hwaiting rfl (List.append_nil _).symm hawaiting
  | iteration depth opening closing array body rest s =>
      have hlater := @Waiting.rests (.code depth rest) _ trivial hrest
      have hwaiting := Waiting.step (.loop depth opening array body) (.closing closing hlater)
      exact continues_silent hwaiting rfl (List.append_nil _).symm hawaiting
  | fragment depth s h =>
      exact continues_silent (.rests trivial hrest) rfl (List.append_nil _).symm hawaiting
  | @enter depth span m text outer s h =>
      refine ⟨_, [.call ⟨m.name, m.block, span, text⟩ (s.calling span m text)],
        .calling _ depth span m text hrest, .single (.call _ _) (List.append_nil _).symm ?_, rfl⟩
      rw [List.append_nil]
      rfl
  | _ => exact htask.elim

theorem continues_of_executes {i : Instruction} (htask : task.Executes i) (hrest : Waiting rest)
    (h : task.Steps c macros s new s') :
    Continues c (c.iterated i) (task :: rest) s (task.emits s) (new ++ rest) s' := by
  cases htask with
  | perform depth span action =>
      have hquiet : s'.host.journal.toList = s.host.journal.toList ++ [] → s'.log = s.log →
          (∀ t ∈ new, t.Rests) →
          Continues c (c.iterated (.of action span)) (.perform depth span action :: rest) s []
            (new ++ rest) s' :=
        fun hjournal hlog hnew =>
          continues_silent (.prepend hnew hrest) hlog hjournal rfl
      have hnil : s.host.journal.toList = s.host.journal.toList ++ [] := (List.append_nil _).symm
      cases h with
      | emitLiteral depth span text s => exact hquiet hnil rfl (by simp [Task.Rests])
      | emitVar depth span h => exact hquiet hnil rfl (by simp [Task.Rests])
      | call depth span s h => exact hquiet hnil rfl (by simp [Task.Rests])
      | endMacroCall => exact hquiet hnil rfl (by simp [Task.Rests])
      | popScope => exact hquiet hnil rfl (by simp [Task.Rests])
      | beginCapture => exact hquiet hnil rfl (by simp)
      | endCapture depth span name h => exact hquiet hnil rfl (by simp [Task.Rests])
      | comment => exact hquiet hnil rfl (by simp)
      | pushScope depth span s =>
          exact continues_single hrest (.opened FrameKind.noConfusion) rfl rfl Array.toList_push rfl
  | loop depth opening array body =>
      cases h with
      | @loop _ _ _ _ found s h =>
          refine ⟨c.told (.arrayIter ⟨array, found, opening⟩), [],
            .telling s _ (.rests trivial hrest), .silent rfl ?_, rfl⟩
          simp only [Setting.iterated, h]

/-- A step of what is owed: its records are made, and others may be left. -/
theorem continues_owed {owed' : List Record} {tasks tasks' : List Task}
    (hphase : Phase c owed' tasks' s') (hlog : s'.log = s.log)
    (hjournal : s'.host.journal.toList ++ owed' = s.host.journal.toList ++ owed)
    (hawaiting : awaiting tasks' = awaiting tasks) : Continues c owed tasks s [] tasks' s' := by
  refine ⟨owed', [], hphase, .silent hlog hjournal, ?_⟩
  rw [hawaiting, List.append_nil]
  rfl

/-- A step is logged, and its rules and its listeners are owed. -/
theorem continues_log {owed' : List Record} {i : Instruction} {tasks : List Task}
    (hphase : Phase c owed' (.rules (s.context i) :: tasks) (s.logged c.verbose i))
    (howed : owed' = c.due (s.context i) ++ c.iterated i) :
    Continues c [] (.log i :: rest) s [] (.rules (s.context i) :: tasks)
      (s.logged c.verbose i) := by
  refine ⟨owed', [.step _], hphase, .single (.step _) Array.toList_push ?_, rfl⟩
  rw [howed, State.logged, Host.note, Array.toList_push, List.append_nil, List.append_assoc]
  rfl

/-- Every step takes the run from one phase to another. -/
theorem continues_of_steps (hphase : Phase c owed (task :: rest) s)
    (h : task.Steps c macros s new s') :
    Continues c owed (task :: rest) s (task.emits s) (new ++ rest) s' := by
  cases hphase with
  | waiting s hwaiting =>
      cases hwaiting with
      | rests htask hrest => exact continues_of_rests htask hrest h
      | @step exec i rest htask hrest =>
          cases h with
          | log =>
              have hlogged : (s.logged c.verbose i).Logged i := ⟨_, Array.back?_push, rfl, rfl⟩
              exact continues_log (.ruling _ hlogged htask hrest) rfl
      | closing span hrest =>
          cases h with
          | log i s => exact continues_log (.closing _ _ hrest) (List.append_nil _).symm
  | ruling context hlogged htask hrest =>
      cases h with
      | rules h =>
          refine continues_owed (.executing hlogged htask hrest) rfl ?_ ?_
          · rw [← List.append_assoc, ← Setting.journal_of_afterStep h]
          · cases htask <;> rfl
  | closing s context hrest =>
      cases h with
      | rules h => exact continues_silent hrest rfl (Setting.journal_of_afterStep h) rfl
  | executing hlogged htask hrest => exact continues_of_executes htask hrest h
  | telling s iteration hrest =>
      cases h with
      | announce h => exact continues_silent hrest rfl (Setting.journal_of_emit h) rfl
  | calling s depth span m text hrest =>
      cases h with
      | announce h =>
          refine continues_owed (.invoking _ depth span m text hrest) rfl ?_ rfl
          rw [← List.append_assoc, ← Setting.journal_of_emit h]
          rfl
  | invoking s depth span m text hrest =>
      cases h with
      | invoke =>
          exact continues_silent (@Waiting.rests (.fragment depth m.body) _ trivial hrest) rfl
            Array.toList_push rfl
  | filtering s text hrest =>
      cases h with
      | filter h =>
          rcases Setting.filtering_of_filterWith h with ⟨calls, hfiltering, hjournal⟩
          exact continues_single (@Waiting.rests (.deliver _) _ trivial hrest)
            (.filtered hfiltering) rfl rfl hjournal rfl

end Phase

/-! ## Runs -/

namespace Agenda

variable {c : Setting σ} {macros : MacroTable}

/-- Some steps, and the texts that are emitted in them while no capture is open. -/
inductive Emits (c : Setting σ) (macros : MacroTable) :
    List Task → State σ → List String → List Task → State σ → Prop where
  | refl (tasks : List Task) (s : State σ) : Emits c macros tasks s [] tasks s
  | step {task : Task} {new rest tasks : List Task} {s s' s'' : State σ} {texts : List String}
      (hstep : task.Steps c macros s new s')
      (hrest : Emits c macros (new ++ rest) s' texts tasks s'') :
      Emits c macros (task :: rest) s (task.emits s ++ texts) tasks s''

/-- By induction on the steps; that the run is in some phase is the invariant. -/
theorem recorded_of_leads {tasks tasks' : List Task} {s s' : State σ} {owed : List Record}
    (h : Leads c macros tasks s tasks' s') (hphase : Phase c owed tasks s) :
    ∃ owed' episodes texts, Phase c owed' tasks' s' ∧ Recorded c owed s episodes owed' s' ∧
      Emits c macros tasks s texts tasks' s' ∧
      episodes.filterMap Episode.text? ++ awaiting tasks' = awaiting tasks ++ texts := by
  induction h generalizing owed with
  | refl tasks s => exact ⟨owed, [], [], hphase, .refl owed s, .refl tasks s, by simp⟩
  | step hstep _ ih =>
      rcases Phase.continues_of_steps hphase hstep with
        ⟨between, episodes, hbetween, hrecorded, htexts⟩
      rcases ih hbetween with ⟨owed', episodes', texts, hphase', hrecorded', hemits, htexts'⟩
      refine ⟨owed', episodes ++ episodes', _, hphase', hrecorded.trans hrecorded',
        .step hstep hemits, ?_⟩
      rw [List.filterMap_append, List.append_assoc, htexts', ← List.append_assoc, htexts,
        List.append_assoc]

end Agenda

namespace Program

variable {p : Program} {c : Setting σ} {world : σ} {tasks : List Task} {s : State σ}

theorem phase_of_reaches (h : p.Reaches c world tasks s) :
    ∃ owed episodes texts, Phase c owed tasks s ∧
      Recorded c [] (State.initial world) episodes owed s ∧
      Agenda.Emits c p.macros p.agenda (State.initial world) texts tasks s ∧
      episodes.filterMap Episode.text? ++ awaiting tasks = texts := by
  have hwaiting : Waiting p.agenda := by
    rw [← List.append_nil p.agenda]
    exact .prepend (by simp [agenda, Task.Rests, Event.kind]) .nil
  exact Agenda.recorded_of_leads h (.waiting _ hwaiting)

end Program

end Stencil
