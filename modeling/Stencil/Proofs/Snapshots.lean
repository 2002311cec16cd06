import Stencil.Compile
import Stencil.Proofs.Tracebacks
import Stencil.Proofs.Visibility

/-!
# Snapshots explain values

A verbose run keeps with every step what was visible before it.  The value of a variable is
looked up later, after the rules of the step were called.  Nothing that happens in between
touches the frames, so the snapshot tells which value is emitted, and whether there is one.
-/

namespace Stencil

variable {σ : Type}

/-- What the step has to say about a name: what its snapshot has, or else the global
variable. -/
def LogEntry.shown (environment : Environment) (name : String) (entry : LogEntry) :
    Option String :=
  entry.snapshot.bind (List.lookup name) <|> environment.findVariable name

/-! ## Frames -/

namespace ScopeStack

variable {stack : ScopeStack} {frame : Frame}

theorem Keyed.cons (hframe : Bindings.Keyed frame.values) (h : stack.Keyed) :
    Keyed (frame :: stack) :=
  List.forall_mem_cons.mpr ⟨hframe, h⟩

theorem Keyed.outer (h : Keyed (frame :: stack)) : stack.Keyed :=
  (List.forall_mem_cons.mp h).2

end ScopeStack

namespace Task

variable {c : Setting σ} {macros : MacroTable} {task : Task} {s s' : State σ} {new : List Task}

theorem keyed_of_steps (h : task.Steps c macros s new s') (hkeyed : s.frames.Keyed) :
    s'.frames.Keyed := by
  cases h with
  | pushScope depth span s => exact .cons List.nodup_nil hkeyed
  | bind name text hframes =>
      rw [hframes] at hkeyed
      exact .cons (Entries.nodup_set (hkeyed _ List.mem_cons_self)) hkeyed.outer
  | leave hframes =>
      rw [hframes] at hkeyed
      exact hkeyed.outer
  | item depth array span body index item rest s =>
      have hnames : Bindings.Keyed [(Binding.index, toString index), (Binding.item, item)] := by
        simp [Bindings.Keyed, Bindings.names, Binding.index, Binding.item]
      exact .cons hnames hkeyed
  | invoke depth span m text s => exact .cons (List.nodup_singleton Binding.pattern) hkeyed
  | _ => exact hkeyed

end Task

theorem Agenda.keyed_of_leads {c : Setting σ} {macros : MacroTable} {tasks tasks' : List Task}
    {s s' : State σ} (h : Leads c macros tasks s tasks' s') (hkeyed : s.frames.Keyed) :
    s'.frames.Keyed := by
  induction h with
  | refl tasks s => exact hkeyed
  | step hstep _ ih => exact ih (Task.keyed_of_steps hstep hkeyed)

/-! ## What comes before a task is executed -/

/-- The last step, if there was one. -/
theorem Agenda.Leads.last {c : Setting σ} {macros : MacroTable} {tasks tasks' : List Task}
    {s s' : State σ} (h : Leads c macros tasks s tasks' s') :
    (tasks' = tasks ∧ s' = s) ∨ ∃ task new rest before,
      Leads c macros tasks s (task :: rest) before ∧ task.Steps c macros before new s' ∧
        tasks' = new ++ rest := by
  induction h with
  | refl tasks s => exact .inl ⟨rfl, rfl⟩
  | step hstep _ ih =>
      rcases ih with ⟨rfl, rfl⟩ | ⟨task, new, rest, before, hleads, hlast, rfl⟩
      · exact .inr ⟨_, _, _, _, .refl _ _, hstep, rfl⟩
      · exact .inr ⟨task, new, rest, before, .step hstep hleads, hlast, rfl⟩

theorem Waiting.not_executes {task : Task} {rest : List Task} (h : Waiting (task :: rest))
    (i : Instruction) : ¬task.Executes i := by
  intro htask
  cases h with
  | rests hrests _ => cases htask <;> exact hrests.elim
  | step => cases htask
  | closing => cases htask

theorem Waiting.ne_rules {task : Task} {rest : List Task} (h : Waiting (task :: rest))
    (context : StepContext) : task ≠ .rules context := by
  rintro rfl
  cases h with
  | rests hrests _ => exact hrests

namespace Task

variable {c : Setting σ} {macros : MacroTable} {task head : Task} {s s' : State σ}
  {new : List Task}

/-- No step puts a task that executes in the place of the next one. -/
theorem not_executes_of_steps (h : task.Steps c macros s (head :: new) s') (i : Instruction) :
    ¬head.Executes i := by
  intro hhead
  cases h <;> cases hhead

theorem log_of_steps {context : StepContext}
    (h : task.Steps c macros s (.rules context :: new) s') :
    ∃ i, task = .log i ∧ context = s.context i ∧ s' = s.logged c.verbose i ∧ new = [] := by
  cases h with
  | log i s => exact ⟨i, rfl, rfl, rfl, rfl⟩

end Task

namespace Phase

variable {c : Setting σ} {macros : MacroTable} {owed : List Record} {task next : Task}
  {rest : List Task} {s s' : State σ}

/-- What steps aside for a task that executes are the rules of its step. -/
theorem rules_of_executes (hphase : Phase c owed (task :: next :: rest) s) {i : Instruction}
    (hnext : next.Executes i) (h : task.Steps c macros s [] s') :
    ∃ context, task = .rules context := by
  cases hphase with
  | waiting s hwaiting =>
      cases hwaiting with
      | rests _ hrest => exact absurd hnext (hrest.not_executes i)
      | step => cases h
      | closing => cases h
  | ruling context => exact ⟨context, rfl⟩
  | closing s context => exact ⟨context, rfl⟩
  | calling => cases hnext
  | executing _ _ hrest => exact absurd hnext (hrest.not_executes i)
  | telling s iteration hrest => exact absurd hnext (hrest.not_executes i)
  | invoking s depth span m text hrest => exact absurd hnext (hrest.not_executes i)
  | filtering s text hrest => exact absurd hnext (hrest.not_executes i)

/-- Rules are never called in the second place. -/
theorem ne_rules (hphase : Phase c owed (task :: next :: rest) s) (context : StepContext) :
    next ≠ .rules context := by
  cases hphase with
  | waiting s hwaiting =>
      cases hwaiting with
      | rests _ hrest => exact hrest.ne_rules context
      | step hnext _ =>
          rintro rfl
          cases hnext
      | closing span hrest => exact hrest.ne_rules context
  | ruling other hlogged hnext hrest =>
      rintro rfl
      cases hnext
  | closing s other hrest => exact hrest.ne_rules context
  | executing _ _ hrest => exact hrest.ne_rules context
  | telling s iteration hrest => exact hrest.ne_rules context
  | calling => exact Task.noConfusion
  | invoking s depth span m text hrest => exact hrest.ne_rules context
  | filtering s text hrest => exact hrest.ne_rules context

end Phase

namespace Program

variable {p : Program} {c : Setting σ} {world : σ} {task : Task} {rest : List Task} {s : State σ}

theorem keyed_of_reaches {tasks : List Task} (h : p.Reaches c world tasks s) : s.frames.Keyed :=
  Agenda.keyed_of_leads h (List.forall_mem_nil _)

/-- Where a step is about to be logged, nothing is under way. -/
theorem waiting_of_log {i : Instruction} (h : p.Reaches c world (.log i :: rest) s) :
    Waiting (.log i :: rest) := by
  rcases phase_of_reaches h with ⟨owed, episodes, texts, hphase, _⟩
  cases hphase with
  | waiting s hwaiting => exact hwaiting
  | executing _ hlog _ => cases hlog

/-- Rules are called right after their step was logged. -/
theorem reaches_log_of_rules {context : StepContext}
    (h : p.Reaches c world (.rules context :: rest) s) :
    ∃ i before, p.Reaches c world (.log i :: rest) before ∧ s = before.logged c.verbose i := by
  rcases Agenda.Leads.last h with ⟨htasks, _⟩ | ⟨last, new, others, before, hbefore, hlast, htasks⟩
  · cases htasks
  · rcases phase_of_reaches hbefore with ⟨owed, episodes, texts, hphase, _⟩
    cases new with
    | nil =>
        rw [List.nil_append] at htasks
        rw [← htasks] at hphase
        exact absurd rfl (hphase.ne_rules context)
    | cons head new =>
        cases htasks
        rcases Task.log_of_steps hlast with ⟨i, rfl, _, rfl, rfl⟩
        exact ⟨i, before, hbefore, rfl⟩

/-- What is executed was logged before, and between the two only rules were called. -/
theorem reaches_log_of_executes {i : Instruction} (h : p.Reaches c world (task :: rest) s)
    (htask : task.Executes i) :
    ∃ before host, p.Reaches c world (.log i :: task :: rest) before ∧
      s = { before.logged c.verbose i with host := host } := by
  rcases Agenda.Leads.last h with ⟨htasks, _⟩ | ⟨last, new, others, before, hbefore, hlast, htasks⟩
  · cases htasks
    cases htask
  · rcases phase_of_reaches hbefore with ⟨owed, episodes, texts, hphase, _⟩
    cases new with
    | cons head new =>
        cases htasks
        exact absurd htask (Task.not_executes_of_steps hlast i)
    | nil =>
        rw [List.nil_append] at htasks
        subst htasks
        rcases hphase.rules_of_executes htask hlast with ⟨context, rfl⟩
        rcases reaches_log_of_rules hbefore with ⟨logged, first, hfirst, rfl⟩
        cases hlast with
        | @rules _ _ host _ =>
            have hlogged : logged = i := by
              cases waiting_of_log hfirst with
              | rests hrests _ => exact hrests.elim
              | step hexecutes _ => cases htask <;> cases hexecutes <;> rfl
              | closing span hrest => exact absurd htask (hrest.not_executes i)
            rw [← hlogged]
            exact ⟨first, host, hfirst, rfl⟩

/-- An instruction of its own that was logged is executed, unless a rule fails first. -/
theorem reaches_executes_of_log {action : Action} {span : Option Span}
    (h : p.Reaches c world (.log (.of action span) :: rest) s) :
    (∃ depth later host, p.Reaches c world (.perform depth span action :: later)
      { s.logged c.verbose (.of action span) with host := host }) ∨
    ∃ e host, p.Raises c world (.handler .stepRule e)
      { s.logged c.verbose (.of action span) with host := host } := by
  have hrules := h.trans (.step (.log (.of action span) s) (.refl _ _))
  cases waiting_of_log h with
  | rests hrests _ => exact hrests.elim
  | @step _ _ later htask _ =>
      cases htask with
      | perform depth =>
          rcases Task.steps_or_fails c p.macros (.rules (s.context (.of action span)))
              (s.logged c.verbose (.of action span)) with ⟨new, s', hstep⟩ | ⟨x, s', hfails⟩
          · cases hstep with
            | rules hcall =>
                have hnext := hrules.trans (.step (.rules hcall) (.refl _ _))
                exact .inl ⟨depth, later, _, hnext⟩
          · cases hfails with
            | rules hcall => exact .inr ⟨_, _, _, _, _, hrules, .rules hcall⟩

/-! ## Variables -/

/-- The step that was logged last has the variable, and shows which value is emitted and
whether there is one. -/
structure Decides (p : Program) (c : Setting σ) (depth : Nat) (span : Option Span)
    (name : String) (s : State σ) (entry : LogEntry) : Prop where
  last : s.log.back? = some entry
  instruction : entry.instruction = .of (.emitVar name) span
  snapshot : ∃ bindings, entry.snapshot = some bindings
  /-- The value is emitted that the step shows, and nothing else happens. -/
  emits : ∀ tasks s', Task.Steps c p.macros (.perform depth span (.emitVar name)) s tasks s' ↔
    ∃ value, entry.shown c.environment name = some value ∧ tasks = [.write value] ∧ s' = s
  /-- A name that the step does not show is undefined. -/
  fails : ∀ x s', Task.Fails c p.macros (.perform depth span (.emitVar name)) s x s' ↔
    entry.shown c.environment name = none ∧
      x = .machine ⟨.undefinedVariable name, span, none⟩ ∧ s' = s

/-- Whatever a run emits of variables, its log explains. -/
structure Explains (p : Program) (c : Setting σ) (world : σ) : Prop where
  executed : ∀ depth span name rest s,
    p.Reaches c world (.perform depth span (.emitVar name) :: rest) s →
    ∃ entry ∈ (p.run c world).state.log.toList, p.Decides c depth span name s entry
  /-- A variable that was logged is executed at this step, unless a rule fails first. -/
  logged : ∀ entry ∈ (p.run c world).state.log.toList, ∀ name span,
    entry.instruction = .of (.emitVar name) span →
    (∃ depth rest s, p.Reaches c world (.perform depth span (.emitVar name) :: rest) s ∧
      p.Decides c depth span name s entry) ∨
    ∃ e s, p.Raises c world (.handler .stepRule e) s ∧ s.log.back? = some entry
  /-- The machine misses no other names than those. -/
  undefined : ∀ e name s, p.Raises c world (.machine e) s → e.cause = .undefinedVariable name →
    ∃ depth rest entry, p.Reaches c world (.perform depth e.span (.emitVar name) :: rest) s ∧
      entry ∈ (p.run c world).state.log.toList ∧ p.Decides c depth e.span name s entry ∧
      entry.shown c.environment name = none

/-- No effect comes between the snapshot and the lookup. -/
theorem decides_of_logged {before : State σ} {depth : Nat} {span : Option Span} {name : String}
    (hkeyed : before.frames.Keyed) (hverbose : c.verbose = true) (host : Host σ) :
    p.Decides c depth span name
      { before.logged c.verbose (.of (.emitVar name) span) with host := host }
      (before.entry c.verbose (.of (.emitVar name) span)) := by
  have hshown : (before.entry c.verbose (.of (.emitVar name) span)).shown c.environment name =
      (ScopeStack.lookup name before.frames <|> c.environment.findVariable name) := by
    rw [LogEntry.shown, ← ScopeStack.lookup_visible hkeyed, State.entry, hverbose]
    rfl
  constructor
  case last => exact Array.back?_push
  case instruction => rfl
  case snapshot => exact ⟨_, if_pos hverbose⟩
  case emits =>
    intro tasks s'
    rw [hshown]
    constructor
    · intro hstep
      cases hstep with
      | emitVar _ _ hvalue => exact ⟨_, hvalue, rfl, rfl⟩
    · rintro ⟨value, hvalue, rfl, rfl⟩
      exact .emitVar depth span hvalue
  case fails =>
    intro x s'
    rw [hshown]
    constructor
    · intro hfails
      cases hfails with
      | emitVar _ _ hnone => exact ⟨hnone, rfl, rfl⟩
    · rintro ⟨hnone, rfl, rfl⟩
      exact .emitVar depth span hnone

theorem decides_of_reaches (hverbose : c.verbose = true) {depth : Nat} {span : Option Span}
    {name : String} (h : p.Reaches c world (.perform depth span (.emitVar name) :: rest) s) :
    ∃ entry ∈ (p.run c world).state.log.toList, p.Decides c depth span name s entry := by
  rcases reaches_log_of_executes h (.perform depth span (.emitVar name)) with
    ⟨before, host, hbefore, rfl⟩
  exact ⟨_, LogsIn.mem (.step hbefore), decides_of_logged (keyed_of_reaches hbefore) hverbose host⟩

theorem explains_of_verbose (p : Program) (world : σ) (hverbose : c.verbose = true) :
    p.Explains c world where
  executed := fun _ _ _ _ _ hreaches => decides_of_reaches hverbose hreaches
  logged := by
    intro entry hentry name span hinstruction
    rcases logsIn_of_mem hentry with ⟨place, hlogs⟩
    cases hlogs with
    | @step i rest s hlog =>
        cases hinstruction
        rcases reaches_executes_of_log hlog with ⟨depth, later, host, hnext⟩ | ⟨e, host, hraises⟩
        · exact .inl ⟨depth, later, _, hnext,
            decides_of_logged (keyed_of_reaches hlog) hverbose host⟩
        · exact .inr ⟨e, _, hraises, Array.back?_push⟩
  undefined := by
    rintro e name s ⟨task, rest, before, hreaches, hfails⟩ hcause
    cases hfails with
    | @emitVar depth span missed _ hnone =>
        cases hcause
        rcases decides_of_reaches hverbose hreaches with ⟨entry, hentry, hdecides⟩
        have hundefined := ((hdecides.fails _ _).mp (.emitVar depth span hnone)).1
        exact ⟨depth, rest, entry, hreaches, hentry, hdecides, hundefined⟩
    | _ => cases hcause

theorem snapshots_explain (p : Program) (c : Setting σ) (world : σ)
    (hverbose : c.verbose = true) :
    (∀ stack : ScopeStack, stack.Keyed → stack.Transparent) ∧ p.Explains c world :=
  ⟨fun _ hkeyed => ScopeStack.transparent_of_keyed hkeyed,
    explains_of_verbose p world hverbose⟩

/-- A global variable has the name that an iteration binds, and a frame lies over another one
that binds the same name. -/
theorem snapshots_explain_shadowing :
    let c : Setting Unit :=
      ⟨"m", ⟨[("_item_", "global"), ("v", "!")], [("a", ["1"])]⟩, Registry.empty,
        Sink.accepting, true⟩
    let source := "\x7b\x7b \"$(_item_)\"; a[:] | ?m; @m \"$(_item_)\" | \"$(_)$(v)\" \x7d\x7d"
    let inner : Frame := ⟨"b", .scope, .numbered 2, none, [("y", "3"), ("x", "4")]⟩
    let outer : Frame := ⟨"a", .scope, .numbered 1, none, [("x", "1"), ("z", "2")]⟩
    let shown := fun (entry : LogEntry) =>
      match entry.instruction.operation with
      | .act (.emitVar name) => [(name, entry.shown c.environment name)]
      | _ => []
    ∃ p, compile source = .ok p ∧ c.verbose = true ∧
      ScopeStack.visible [inner, outer] = [("x", "4"), ("z", "2"), ("y", "3")] ∧
      ScopeStack.Transparent [inner, outer] ∧ p.Explains c () ∧
      (p.run c ()).state.log.toList.flatMap shown =
        [("_item_", some "global"), ("_item_", some "1"), ("_", some "1"), ("v", some "!")] := by
  intro c source inner outer shown
  have hlog : (compile source).map (fun p => (p.run c ()).state.log.toList.flatMap shown) =
      .ok [("_item_", some "global"), ("_item_", some "1"), ("_", some "1"),
        ("v", some "!")] := by
    decide +kernel
  have hkeyed : ScopeStack.Keyed [inner, outer] := by
    simp [ScopeStack.Keyed, Bindings.Keyed, Bindings.names, inner, outer]
  cases hcompile : compile source with
  | error e =>
      rw [hcompile] at hlog
      cases hlog
  | ok p =>
      rw [hcompile] at hlog
      rcases snapshots_explain p c () rfl with ⟨htransparent, hexplains⟩
      exact ⟨p, rfl, rfl, by decide, htransparent _ hkeyed, hexplains, Except.ok.inj hlog⟩

end Program

end Stencil
