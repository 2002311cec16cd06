import Stencil.Proofs.Stepping

/-!
# Runs as sequences of steps

What is left to do in a run is an agenda of tasks, of which the first one takes
the next step.  Every agenda comes to an end, and a program runs as its agenda
does.
-/

namespace Stencil

namespace Agenda

variable {σ : Type}

section Rules

variable (c : Setting σ) (macros : MacroTable)

/-- Any number of steps, each taken by the first task. -/
inductive Leads : List Task → State σ → List Task → State σ → Prop where
  | refl (tasks : List Task) (s : State σ) : Leads tasks s tasks s
  | step {task : Task} {new rest tasks : List Task} {s s' s'' : State σ}
      (hstep : task.Steps c macros s new s') (hrest : Leads (new ++ rest) s' tasks s'') :
      Leads (task :: rest) s tasks s''

/-- Some steps, and then one that fails. -/
def Raises (tasks : List Task) (s : State σ) (x : Failure) (s' : State σ) : Prop :=
  ∃ task rest before, Leads c macros tasks s (task :: rest) before ∧
    task.Fails c macros before x s'

/-- Whatever steps are taken, they end. -/
inductive Ends : List Task → State σ → Prop where
  | done (s : State σ) : Ends [] s
  | fails {task : Task} (rest : List Task) {s s' : State σ} {x : Failure}
      (h : task.Fails c macros s x s') : Ends (task :: rest) s
  | step {task : Task} {new rest : List Task} {s s' : State σ}
      (hstep : task.Steps c macros s new s') (hrest : Ends (new ++ rest) s') :
      Ends (task :: rest) s

/-- A task that comes to an end, whatever stands after it. -/
def Halts (task : Task) : Prop :=
  ∀ rest s, (∀ s', Ends c macros rest s') → Ends c macros (task :: rest) s

end Rules

variable {c : Setting σ} {macros : MacroTable}

theorem bind_apply_congr {m m' : Exec σ Unit} {k : Unit → Exec σ Unit} {s s' : State σ}
    (h : m s = m' s') : (m >>= k) s = (m' >>= k) s' := by
  change EStateM.bind m k s = EStateM.bind m' k s'
  rw [EStateM.bind, EStateM.bind, h]

theorem Leads.trans {tasks tasks' tasks'' : List Task} {s s' s'' : State σ}
    (h : Leads c macros tasks s tasks' s') (h' : Leads c macros tasks' s' tasks'' s'') :
    Leads c macros tasks s tasks'' s'' := by
  induction h with
  | refl tasks s => exact h'
  | step hstep _ ih => exact .step hstep (ih h')

theorem runAll_of_leads {tasks tasks' : List Task} {s s' : State σ}
    (h : Leads c macros tasks s tasks' s') :
    Task.runAll c macros tasks s = Task.runAll c macros tasks' s' := by
  induction h with
  | refl tasks s => rfl
  | @step task new rest tasks s s' s'' hstep _ ih =>
      rw [← ih, Task.runAll_append]
      exact bind_apply_congr (Task.run_of_steps hstep)

theorem runAll_of_raises {tasks : List Task} {s s' : State σ} {x : Failure}
    (h : Raises c macros tasks s x s') :
    Task.runAll c macros tasks s = .error (x.toFault s'.lastSpan) s' := by
  rcases h with ⟨task, rest, before, hleads, hfails⟩
  rw [runAll_of_leads hleads]
  exact Exec.bind_of_error (Task.run_of_fails hfails)

/-! ### Every agenda ends -/

theorem ends_append {tasks rest : List Task} (htasks : ∀ task ∈ tasks, Halts c macros task)
    (hrest : ∀ s, Ends c macros rest s) (s : State σ) : Ends c macros (tasks ++ rest) s := by
  induction tasks generalizing s with
  | nil => exact hrest s
  | cons task tasks ih =>
      apply htasks task List.mem_cons_self
      intro s'
      exact ih (fun other hother => htasks other (List.mem_cons_of_mem _ hother)) s'

theorem halts_of_steps {task : Task}
    (h : ∀ {s new s'}, task.Steps c macros s new s' → ∀ t ∈ new, Halts c macros t) :
    Halts c macros task := by
  intro rest s hrest
  rcases Task.steps_or_fails c macros task s with ⟨new, s', hstep⟩ | ⟨x, s', hfails⟩
  · exact .step hstep (ends_append (h hstep) hrest s')
  · exact .fails rest hfails

/-- Nesting depth first, then the instructions to go through, then the stage. -/
def weight : Task → Nat × Nat × Nat
  | .announce _ | .rules _ | .deliver _ | .bind _ _ | .leave => (0, 0, 0)
  | .log _ | .filter _ => (0, 0, 1)
  | .write _ => (0, 0, 2)
  | .perform depth _ _ => (depth, 0, 3)
  | .loop depth _ _ body => (depth, body.toInstructions.length + 1, 0)
  | .items depth _ _ body _ found => (depth, body.toInstructions.length, found.length + 1)
  | .code depth matched => (depth, matched.toInstructions.length, 0)
  | .fragment depth is => (depth, is.length, 1)
  | .enter depth _ m => (depth, m.body.length, 3)
  | .invoke depth _ m _ => (depth, m.body.length, 2)

/-- A step leaves lighter tasks only. -/
theorem lighter_of_steps {task : Task} {tasks : List Task} {s s' : State σ}
    (h : task.Steps c macros s tasks s') :
    ∀ next ∈ tasks, Prod.Lex (· < ·) (Prod.Lex (· < ·) (· < ·)) (weight next) (weight task) := by
  cases h with
  | fragment depth s hmatched =>
      have hcode := Code.toInstructions_of_ofInstructions hmatched
      simp [weight, Prod.lex_def, hcode]
  | step depth action span rest s =>
      simp only [List.mem_cons, List.not_mem_nil, or_false, forall_eq_or_imp, forall_eq, true_and,
        weight, Prod.lex_def, Code.toInstructions, List.length_cons]
      omega
  | iteration depth opening closing array body rest s =>
      simp only [List.mem_cons, List.not_mem_nil, or_false, forall_eq_or_imp, forall_eq, true_and,
        weight, Prod.lex_def, Code.toInstructions, List.length_cons, List.length_append]
      omega
  | _ => simp [weight, Prod.lex_def] <;> omega

/-- By induction on the weight. -/
theorem halts (c : Setting σ) (macros : MacroTable) (task : Task) :
    Halts c macros task := by
  apply halts_of_steps
  intro s new s' hstep next hnext
  exact halts c macros next
termination_by weight task
decreasing_by exact lighter_of_steps hstep next hnext

theorem completes_or_raises_of_ends {tasks : List Task} {s : State σ}
    (h : Ends c macros tasks s) :
    (∃ s', Leads c macros tasks s [] s') ∨ ∃ x s', Raises c macros tasks s x s' := by
  induction h with
  | done s => exact .inl ⟨s, .refl [] s⟩
  | fails rest h => exact .inr ⟨_, _, _, rest, _, .refl _ _, h⟩
  | step hstep _ ih =>
      rcases ih with ⟨s', hleads⟩ | ⟨x, s', task, rest, before, hleads, hfails⟩
      · exact .inl ⟨s', .step hstep hleads⟩
      · exact .inr ⟨x, s', task, rest, before, .step hstep hleads, hfails⟩

theorem completes_or_raises (c : Setting σ) (macros : MacroTable) (tasks : List Task)
    (s : State σ) :
    (∃ s', Leads c macros tasks s [] s') ∨ ∃ x s', Raises c macros tasks s x s' := by
  have hends : Ends c macros (tasks ++ []) s :=
    ends_append (fun task _ => halts c macros task) Ends.done s
  rw [List.append_nil] at hends
  exact completes_or_raises_of_ends hends

end Agenda

/-! ## Programs -/

namespace Program

variable {σ : Type}

def agenda (p : Program) : List Task :=
  [.announce (.programStart p), .fragment (Exec.callDepth p.macros) p.instructions,
    .announce .programEnd]

/-- The run comes to a state in which some tasks are left. -/
def Reaches (p : Program) (c : Setting σ) (world : σ) (tasks : List Task) (s : State σ) :
    Prop :=
  Agenda.Leads c p.macros p.agenda (State.initial world) tasks s

/-- The run fails, with what was raised and the state that was left. -/
def Raises (p : Program) (c : Setting σ) (world : σ) (x : Failure) (s : State σ) : Prop :=
  Agenda.Raises c p.macros p.agenda (State.initial world) x s

/-- The states of a run: those between its steps, the one a failure leaves, and
the last, after the listeners for errors were told. -/
inductive Visits (p : Program) (c : Setting σ) (world : σ) : State σ → Prop where
  | reached {tasks : List Task} {s : State σ} (h : p.Reaches c world tasks s) :
      Visits p c world s
  | raised {x : Failure} {s : State σ} (h : p.Raises c world x s) : Visits p c world s
  | ended : Visits p c world (p.run c world).state

variable {p : Program} {c : Setting σ} {world : σ} {s : State σ} {x : Failure}

theorem program_eq_runAll (p : Program) (c : Setting σ) :
    Exec.program c p = Task.runAll c p.macros p.agenda := by
  rw [agenda, Task.runAll, Task.runAll, Task.runAll_single]
  rfl

theorem run_of_reaches (h : p.Reaches c world [] s) : p.run c world = ⟨none, s⟩ := by
  rw [run, program_eq_runAll, Agenda.runAll_of_leads h]
  rfl

theorem run_of_raises (h : p.Raises c world x s) :
    p.run c world = Outcome.failed c (x.toFault s.lastSpan) s := by
  rw [run, program_eq_runAll, Agenda.runAll_of_raises h]

theorem completes_or_raises (p : Program) (c : Setting σ) (world : σ) :
    (∃ s, p.Reaches c world [] s) ∨ ∃ x s, p.Raises c world x s :=
  Agenda.completes_or_raises c p.macros p.agenda (State.initial world)

end Program

end Stencil
