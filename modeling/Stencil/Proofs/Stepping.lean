import Stencil.Proofs.Effects

/-!
# Single steps

What the machine does, cut into tasks that take one step at a time.  A task takes
a step, after which others may stand in its place, or it fails.  A failure is
kept as it was raised, before anything makes a runtime error of it.

A task means a computation of the machine, and each step keeps that meaning.
-/

namespace Stencil

/-- What a step may raise: an error of the machine, whatever a hook fails with, or
a breakdown. -/
inductive Failure where
  | machine (error : RuntimeError)
  | handler (point : HookPoint) (error : HookError)
  | breakdown (breakdown : Breakdown)

namespace Failure

/-- As the machine passes it on. -/
def toFault (lastSpan : Option Span) : Failure → Fault
  | machine e => .error e
  | handler point e => .error (Exec.ofHookError point lastSpan e)
  | breakdown b => .breakdown b

end Failure

inductive Task where
  | announce (event : Event)
  | log (i : Instruction)
  | rules (context : StepContext)
  | write (text : String)
  | filter (text : String)
  | deliver (text : String)
  | perform (depth : Nat) (span : Option Span) (action : Action)
  | bind (name text : String)
  | leave
  | loop (depth : Nat) (opening : Option Span) (array : String) (body : Code)
  | items (depth : Nat) (array : String) (span : Option Span) (body : Code) (index : Nat)
      (items : List String)
  | code (depth : Nat) (code : Code)
  | fragment (depth : Nat) (instructions : List Instruction)
  /-- Into a macro whose pattern stands in the innermost capture. -/
  | enter (depth : Nat) (span : Option Span) (m : Macro)
  | invoke (depth : Nat) (span : Option Span) (m : Macro) (pattern : String)

namespace Task

variable {σ : Type}

section Rules

variable (c : Setting σ) (macros : MacroTable)

/-- A step that a task takes: the tasks that stand in its place afterwards, and
the state it leaves. -/
inductive Steps : Task → State σ → List Task → State σ → Prop where
  | announce {event : Event} {s : State σ} {host : Host σ}
      (h : c.registry.emit c.machine event s.host = .ok () host) :
      Steps (announce event) s [] { s with host := host }
  | log (i : Instruction) (s : State σ) :
      Steps (log i) s [rules (s.context i)] (s.logged c.verbose i)
  | rules {context : StepContext} {s : State σ} {host : Host σ}
      (h : c.registry.afterStep c.machine context s.host = .ok () host) :
      Steps (rules context) s [] { s with host := host }
  | capture {text innermost : String} {outer : List String} {s : State σ}
      (h : s.captures = innermost :: outer) :
      Steps (write text) s [] { s with captures := (innermost ++ text) :: outer }
  | write (text : String) {s : State σ} (h : s.captures = []) :
      Steps (write text) s [filter text] s
  | filter {text filtered : String} {s : State σ} {host : Host σ}
      (h : c.registry.filterOutput c.machine text s.host = .ok filtered host) :
      Steps (filter text) s [deliver filtered] { s with host := host }
  | deliver {text : String} {s : State σ} (h : c.sink s.host.written text = none) :
      Steps (deliver text) s [] { s with host := s.host.write text }
  | emitLiteral (depth : Nat) (span : Option Span) (text : String) (s : State σ) :
      Steps (perform depth span (.emitLiteral text)) s [write text] s
  | emitVar (depth : Nat) (span : Option Span) {name value : String} {s : State σ}
      (h : (ScopeStack.lookup name s.frames <|> c.environment.findVariable name) =
        some value) :
      Steps (perform depth span (.emitVar name)) s [write value] s
  | call (depth : Nat) (span : Option Span) {name : String} {block : Nat} {m : Macro}
      (s : State σ) (h : macros.get? block name = some m) :
      Steps (perform (depth + 1) span (.beginMacroCall name block)) s
        [fragment depth m.pattern, enter depth span m] { s with captures := "" :: s.captures }
  | endMacroCall (depth : Nat) (span : Option Span) (s : State σ) :
      Steps (perform depth span .endMacroCall) s [leave] s
  | pushScope (depth : Nat) (span : Option Span) (s : State σ) :
      Steps (perform depth span .pushScope) s [] (s.opened "<scope>" .scope span [])
  | popScope (depth : Nat) (span : Option Span) (s : State σ) :
      Steps (perform depth span .popScope) s [leave] s
  | beginCapture (depth : Nat) (span : Option Span) (s : State σ) :
      Steps (perform depth span .beginCapture) s [] { s with captures := "" :: s.captures }
  | endCapture (depth : Nat) (span : Option Span) (name : String) {text : String}
      {outer : List String} {s : State σ} (h : s.captures = text :: outer) :
      Steps (perform depth span (.endCapture name)) s [bind name text]
        { s with captures := outer }
  | comment (depth : Nat) (span : Option Span) (text : String) (s : State σ) :
      Steps (perform depth span (.comment text)) s [] s
  | bind (name text : String) {frame : Frame} {outer : ScopeStack} {s : State σ}
      (h : s.frames = frame :: outer) :
      Steps (bind name text) s []
        { s with
          frames := { frame with values := Entries.set name text frame.values } :: outer }
  | leave {frame : Frame} {outer : ScopeStack} {s : State σ} (h : s.frames = frame :: outer) :
      Steps leave s [] { s with frames := outer }
  | loop (depth : Nat) (opening : Option Span) {array : String} (body : Code)
      {found : List String} (s : State σ) (h : c.environment.findArray array = some found) :
      Steps (loop depth opening array body) s
        [announce (.arrayIter ⟨array, found, opening⟩),
          items depth array opening body 0 found] s
  | noItem (depth : Nat) (array : String) (span : Option Span) (body : Code) (index : Nat)
      (s : State σ) :
      Steps (items depth array span body index []) s [] s
  | item (depth : Nat) (array : String) (span : Option Span) (body : Code) (index : Nat)
      (item : String) (rest : List String) (s : State σ) :
      Steps (items depth array span body index (item :: rest)) s
        [code depth body, leave, items depth array span body (index + 1) rest]
        (s.opened (array ++ "[" ++ toString index ++ "]") .iteration span
          [(Binding.index, toString index), (Binding.item, item)])
  | done (depth : Nat) (s : State σ) : Steps (code depth .done) s [] s
  | step (depth : Nat) (action : Action) (span : Option Span) (rest : Code) (s : State σ) :
      Steps (code depth (.step action span rest)) s
        [log (.of action span), perform depth span action, code depth rest] s
  | iteration (depth : Nat) (opening closing : Option Span) (array : String)
      (body rest : Code) (s : State σ) :
      Steps (code depth (.loop opening array body closing rest)) s
        [log ⟨.beginArrayIter array, opening⟩, loop depth opening array body,
          log ⟨.endArrayIter, closing⟩, code depth rest] s
  | fragment (depth : Nat) {is : List Instruction} {matched : Code} (s : State σ)
      (h : Code.ofInstructions is = .ok matched) :
      Steps (fragment depth is) s [code depth matched] s
  | enter (depth : Nat) (span : Option Span) (m : Macro) {text : String}
      {outer : List String} {s : State σ} (h : s.captures = text :: outer) :
      Steps (enter depth span m) s
        [announce (.macroCall ⟨m.name, m.block, span, text⟩), invoke depth span m text]
        { s with captures := outer }
  | invoke (depth : Nat) (span : Option Span) (m : Macro) (text : String) (s : State σ) :
      Steps (invoke depth span m text) s [fragment depth m.body]
        (s.opened ("?" ++ m.name) .call span [(Binding.pattern, text)])

/-- A step at which a task fails: what is raised, and the state it leaves. -/
inductive Fails : Task → State σ → Failure → State σ → Prop where
  | announce {event : Event} {s : State σ} {e : HookError} {host : Host σ}
      (h : c.registry.emit c.machine event s.host = .error e host) :
      Fails (announce event) s (.handler (.event event.kind) e) { s with host := host }
  | rules {context : StepContext} {s : State σ} {e : HookError} {host : Host σ}
      (h : c.registry.afterStep c.machine context s.host = .error e host) :
      Fails (rules context) s (.handler .stepRule e) { s with host := host }
  | filter {text : String} {s : State σ} {e : HookError} {host : Host σ}
      (h : c.registry.filterOutput c.machine text s.host = .error e host) :
      Fails (filter text) s (.handler .outputFilter e) { s with host := host }
  | deliver {text reason : String} {s : State σ}
      (h : c.sink s.host.written text = some reason) :
      Fails (deliver text) s (.breakdown (.sinkRefused reason)) s
  | emitVar (depth : Nat) (span : Option Span) {name : String} {s : State σ}
      (h : (ScopeStack.lookup name s.frames <|> c.environment.findVariable name) = none) :
      Fails (perform depth span (.emitVar name)) s
        (.machine ⟨.undefinedVariable name, span, none⟩) s
  | tooDeep (span : Option Span) (name : String) (block : Nat) (s : State σ) :
      Fails (perform 0 span (.beginMacroCall name block)) s (.breakdown .callsTooDeep) s
  | missing (depth : Nat) (span : Option Span) {name : String} {block : Nat} (s : State σ)
      (h : macros.get? block name = none) :
      Fails (perform (depth + 1) span (.beginMacroCall name block)) s
        (.breakdown (.missingMacro block name)) s
  | endCapture (depth : Nat) (span : Option Span) (name : String) {s : State σ}
      (h : s.captures = []) :
      Fails (perform depth span (.endCapture name)) s (.breakdown .noOpenCapture) s
  | nop (depth : Nat) (span : Option Span) (s : State σ) :
      Fails (perform depth span .nop) s
        (.machine ⟨.internal (.unknownInstruction Action.nop.opcode), span, none⟩) s
  | bind (name text : String) {s : State σ} (h : s.frames = []) :
      Fails (bind name text) s
        (.machine ⟨.internal (.scope (.bindOutside name)), none, none⟩) s
  | leave {s : State σ} (h : s.frames = []) :
      Fails leave s (.machine ⟨.internal (.scope .underflow), none, none⟩) s
  | loop (depth : Nat) (opening : Option Span) {array : String} (body : Code) (s : State σ)
      (h : c.environment.findArray array = none) :
      Fails (loop depth opening array body) s
        (.machine ⟨.undefinedArray array, opening, none⟩) s
  | fragment (depth : Nat) {is : List Instruction} {fault : IterationFault} (s : State σ)
      (h : Code.ofInstructions is = .error fault) :
      Fails (fragment depth is) s (.machine ⟨.internal (.iteration fault), fault.span, none⟩) s
  | enter (depth : Nat) (span : Option Span) (m : Macro) {s : State σ}
      (h : s.captures = []) :
      Fails (enter depth span m) s (.breakdown .noOpenCapture) s

end Rules

/-! ## What tasks mean -/

variable {c : Setting σ} {macros : MacroTable}

def run (c : Setting σ) (macros : MacroTable) : Task → Exec σ Unit
  | announce event => Exec.emit c event
  | log i => Exec.logStep c i
  | rules context => Exec.hooks .stepRule (c.registry.afterStep c.machine context)
  | write text => Exec.write c text
  | filter text => do
      Exec.deliver c (← Exec.hooks .outputFilter (c.registry.filterOutput c.machine text))
  | deliver text => Exec.deliver c text
  | perform depth span action =>
      Exec.perform c (Exec.callMacro c macros depth) span action
  | bind name text => Exec.bind name text
  | leave => Exec.popFrame
  | loop depth opening array body =>
      match c.environment.findArray array with
      | none => Exec.fail (.undefinedArray array) opening
      | some found => do
          Exec.emit c (.arrayIter ⟨array, found, opening⟩)
          Exec.iterate array opening (Exec.runCode c (Exec.callMacro c macros depth) body) 0
            found
  | items depth array span body index found =>
      Exec.iterate array span (Exec.runCode c (Exec.callMacro c macros depth) body) index found
  | code depth matched => Exec.runCode c (Exec.callMacro c macros depth) matched
  | fragment depth is => Exec.runFragment c (Exec.callMacro c macros depth) is
  | enter depth span m => do
      let text ← Exec.endCapture
      Exec.emit c (.macroCall ⟨m.name, m.block, span, text⟩)
      Exec.pushFrame ("?" ++ m.name) .call span [(Binding.pattern, text)]
      Exec.runFragment c (Exec.callMacro c macros depth) m.body
  | invoke depth span m text => do
      Exec.pushFrame ("?" ++ m.name) .call span [(Binding.pattern, text)]
      Exec.runFragment c (Exec.callMacro c macros depth) m.body

def runAll (c : Setting σ) (macros : MacroTable) : List Task → Exec σ Unit
  | [] => pure ()
  | task :: tasks => do
      task.run c macros
      runAll c macros tasks

theorem runAll_single (task : Task) : runAll c macros [task] = task.run c macros := by
  change (do task.run c macros; pure ()) = _
  rw [bind_pure_unit]

theorem runAll_append (first second : List Task) :
    runAll c macros (first ++ second) =
      (do runAll c macros first; runAll c macros second) := by
  induction first with
  | nil => rfl
  | cons task first ih =>
      change (do task.run c macros; runAll c macros (first ++ second)) =
        (do (do task.run c macros; runAll c macros first); runAll c macros second)
      rw [ih, bind_assoc]

/-- A task does what is left to be done after its first step. -/
theorem run_of_steps {task : Task} {s s' : State σ} {tasks : List Task}
    (h : Steps c macros task s tasks s') : task.run c macros s = runAll c macros tasks s' := by
  cases h with
  | announce h => exact Exec.hooks_of_ok h
  | log i s =>
      rw [runAll_single]
      exact Exec.logStep_apply c i s
  | rules h => exact Exec.hooks_of_ok h
  | capture h => exact Exec.write_captured c _ h
  | write text h =>
      rw [runAll_single]
      exact Exec.write_uncaptured c text h
  | filter h =>
      rw [run, Exec.bind_of_ok (Exec.hooks_of_ok h), runAll_single]
      rfl
  | deliver h => exact Exec.deliver_accepted h
  | emitLiteral depth span text s =>
      rw [runAll_single]
      rfl
  | emitVar depth span h =>
      rw [run, Exec.perform, Exec.bind_of_ok (Exec.lookup_found h span), runAll_single]
      rfl
  | call depth span s h =>
      rw [run, Exec.perform, Exec.callMacro, h, runAll, runAll_single]
      rfl
  | endMacroCall depth span s =>
      rw [runAll_single]
      rfl
  | pushScope depth span s => rfl
  | popScope depth span s =>
      rw [runAll_single]
      rfl
  | beginCapture depth span s => rfl
  | endCapture depth span name h =>
      rw [run, Exec.perform, Exec.bind_of_ok (Exec.endCapture_open h), runAll_single]
      rfl
  | comment depth span text s => rfl
  | bind name text h => exact Exec.bind_open h name text
  | leave h => exact Exec.popFrame_open h
  | loop depth opening body s h =>
      rw [run, h, runAll, runAll_single]
      rfl
  | noItem depth array span body index s => rfl
  | item depth array span body index item rest s =>
      rw [runAll, runAll, runAll_single]
      rfl
  | done depth s => rfl
  | step depth action span rest s =>
      rw [runAll, runAll, runAll_single]
      rfl
  | iteration depth opening closing array body rest s =>
      rw [runAll, runAll, runAll, runAll_single, run, run, run, run, Exec.runCode]
      cases c.environment.findArray array with
      | none => rfl
      | some found =>
          simp only [bind_assoc]
          rfl
  | fragment depth s h =>
      rw [run, Exec.runFragment, h, runAll_single]
      rfl
  | enter depth span m h =>
      rw [run, Exec.bind_of_ok (Exec.endCapture_open h), runAll, runAll_single]
      rfl
  | invoke depth span m text s =>
      rw [runAll_single]
      rfl

theorem run_of_fails {task : Task} {s s' : State σ} {x : Failure}
    (h : Fails c macros task s x s') :
    task.run c macros s = .error (x.toFault s'.lastSpan) s' := by
  cases h with
  | announce h => exact Exec.hooks_of_error h
  | rules h => exact Exec.hooks_of_error h
  | filter h =>
      rw [run, Exec.bind_of_error (Exec.hooks_of_error h)]
      rfl
  | deliver h => exact Exec.deliver_refused h
  | emitVar depth span h =>
      rw [run, Exec.perform, Exec.bind_of_error (Exec.lookup_missing h span)]
      rfl
  | tooDeep span name block s => rfl
  | missing depth span s h =>
      rw [run, Exec.perform, Exec.callMacro, h]
      rfl
  | endCapture depth span name h =>
      rw [run, Exec.perform, Exec.bind_of_error (Exec.endCapture_none h)]
      rfl
  | nop depth span s => rfl
  | bind name text h => exact Exec.bind_none h name text
  | leave h => exact Exec.popFrame_none h
  | loop depth opening body s h =>
      rw [run, h]
      rfl
  | fragment depth s h =>
      rw [run, Exec.runFragment, h]
      rfl
  | enter depth span m h =>
      rw [run, Exec.bind_of_error (Exec.endCapture_none h)]
      rfl

/-- In every state a task takes a step or fails. -/
theorem steps_or_fails (c : Setting σ) (macros : MacroTable) (task : Task) (s : State σ) :
    (∃ tasks s', Steps c macros task s tasks s') ∨ ∃ x s', Fails c macros task s x s' := by
  cases task with
  | announce event =>
      cases h : c.registry.emit c.machine event s.host with
      | ok _ host => exact .inl ⟨_, _, .announce h⟩
      | error e host => exact .inr ⟨_, _, .announce h⟩
  | log i => exact .inl ⟨_, _, .log i s⟩
  | rules context =>
      cases h : c.registry.afterStep c.machine context s.host with
      | ok _ host => exact .inl ⟨_, _, .rules h⟩
      | error e host => exact .inr ⟨_, _, .rules h⟩
  | write text =>
      cases h : s.captures with
      | nil => exact .inl ⟨_, _, .write text h⟩
      | cons innermost outer => exact .inl ⟨_, _, .capture h⟩
  | filter text =>
      cases h : c.registry.filterOutput c.machine text s.host with
      | ok filtered host => exact .inl ⟨_, _, .filter h⟩
      | error e host => exact .inr ⟨_, _, .filter h⟩
  | deliver text =>
      cases h : c.sink s.host.written text with
      | none => exact .inl ⟨_, _, .deliver h⟩
      | some reason => exact .inr ⟨_, _, .deliver h⟩
  | perform depth span action =>
      cases action with
      | emitLiteral text => exact .inl ⟨_, _, .emitLiteral depth span text s⟩
      | emitVar name =>
          cases h : (ScopeStack.lookup name s.frames <|> c.environment.findVariable name) with
          | none => exact .inr ⟨_, _, .emitVar depth span h⟩
          | some value => exact .inl ⟨_, _, .emitVar depth span h⟩
      | beginMacroCall name block =>
          cases depth with
          | zero => exact .inr ⟨_, _, .tooDeep span name block s⟩
          | succ depth =>
              cases h : macros.get? block name with
              | none => exact .inr ⟨_, _, .missing depth span s h⟩
              | some m => exact .inl ⟨_, _, .call depth span s h⟩
      | endMacroCall => exact .inl ⟨_, _, .endMacroCall depth span s⟩
      | pushScope => exact .inl ⟨_, _, .pushScope depth span s⟩
      | popScope => exact .inl ⟨_, _, .popScope depth span s⟩
      | beginCapture => exact .inl ⟨_, _, .beginCapture depth span s⟩
      | endCapture name =>
          cases h : s.captures with
          | nil => exact .inr ⟨_, _, .endCapture depth span name h⟩
          | cons text outer => exact .inl ⟨_, _, .endCapture depth span name h⟩
      | comment text => exact .inl ⟨_, _, .comment depth span text s⟩
      | nop => exact .inr ⟨_, _, .nop depth span s⟩
  | bind name text =>
      cases h : s.frames with
      | nil => exact .inr ⟨_, _, .bind name text h⟩
      | cons frame outer => exact .inl ⟨_, _, .bind name text h⟩
  | leave =>
      cases h : s.frames with
      | nil => exact .inr ⟨_, _, .leave h⟩
      | cons frame outer => exact .inl ⟨_, _, .leave h⟩
  | loop depth opening array body =>
      cases h : c.environment.findArray array with
      | none => exact .inr ⟨_, _, .loop depth opening body s h⟩
      | some found => exact .inl ⟨_, _, .loop depth opening body s h⟩
  | items depth array span body index found =>
      cases found with
      | nil => exact .inl ⟨_, _, .noItem depth array span body index s⟩
      | cons item rest => exact .inl ⟨_, _, .item depth array span body index item rest s⟩
  | code depth matched =>
      cases matched with
      | done => exact .inl ⟨_, _, .done depth s⟩
      | step action span rest => exact .inl ⟨_, _, .step depth action span rest s⟩
      | loop opening array body closing rest =>
          exact .inl ⟨_, _, .iteration depth opening closing array body rest s⟩
  | fragment depth is =>
      cases h : Code.ofInstructions is with
      | ok matched => exact .inl ⟨_, _, .fragment depth s h⟩
      | error fault => exact .inr ⟨_, _, .fragment depth s h⟩
  | enter depth span m =>
      cases h : s.captures with
      | nil => exact .inr ⟨_, _, .enter depth span m h⟩
      | cons text outer => exact .inl ⟨_, _, .enter depth span m h⟩
  | invoke depth span m text => exact .inl ⟨_, _, .invoke depth span m text s⟩

end Task

end Stencil
