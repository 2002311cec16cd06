import Stencil.Machine.State

/-!
# Running programs

Every instruction is logged, and the step rules that are due are called, before
it has any effect.  The effects are

* emit a literal or a variable: write it;
* macro call: render the pattern into a capture of its own, tell the listeners,
  open a frame with the rendered pattern bound, run the body;
* end of a macro call or of a scope: close the innermost frame;
* begin and end of a capture: collect what is written, then bind it;
* array iteration: look up the array, tell the listeners, run the body once for
  each item in a frame of its own, and log the end.

What is written goes into the innermost capture.  Outside of captures it goes
through the output filters to the sink.

A run that fails keeps its state.  The error is given the index of the last step
if it has none, and the listeners for errors are told.
-/

namespace Stencil

namespace Exec

variable {σ : Type}

def fail {α : Type} (cause : Cause) (span : Option Span) : Exec σ α :=
  throw (.error ⟨cause, span, none⟩)

def breakDown {α : Type} (b : Breakdown) : Exec σ α :=
  throw (.breakdown b)

def internal {α : Type} (fault : InternalFault) (span : Option Span) : Exec σ α :=
  fail (.internal fault) span

/-- A failure of a hook leaves the machine as a failure of its extension, at the
last step, unless it is a runtime error. -/
def ofHookError (point : HookPoint) (lastSpan : Option Span) : HookError → RuntimeError
  | .runtime e => e
  | e => ⟨.extension point e.message, lastSpan, none⟩

/-- Calls hooks. -/
def hooks {α : Type} (point : HookPoint) (call : HostM σ α) : Exec σ α := fun s =>
  match call s.host with
  | .ok a host => .ok a { s with host := host }
  | .error e host =>
      .error (.error (ofHookError point s.lastSpan e)) { s with host := host }

def emit (c : Setting σ) (event : Event) : Exec σ Unit :=
  hooks (.event event.kind) (c.registry.emit c.machine event)

/-! ## Steps -/

def logStep (c : Setting σ) (i : Instruction) : Exec σ Unit := do
  let s ← get
  let frame := s.frame
  let snapshot := if c.verbose then some (ScopeStack.visible s.frames) else none
  let index := s.log.size
  modify fun s =>
    { s with
      log := s.log.push ⟨index, frame, i, snapshot⟩
      host := s.host.note (.logged index) }
  hooks .stepRule
    (c.registry.afterStep c.machine ⟨index, i.opcode, i.span, some frame⟩)

/-! ## Writing -/

/-- Hands a chunk to the sink. -/
def deliver (c : Setting σ) (text : String) : Exec σ Unit := do
  let s ← get
  match c.sink s.host.written text with
  | some reason => breakDown (.sinkRefused reason)
  | none => set { s with host := s.host.write text }

def write (c : Setting σ) (text : String) : Exec σ Unit := do
  let s ← get
  match s.captures with
  | innermost :: outer => set { s with captures := (innermost ++ text) :: outer }
  | [] =>
      let text ← hooks .outputFilter (c.registry.filterOutput c.machine text)
      deliver c text

def beginCapture : Exec σ Unit :=
  modify fun s => { s with captures := "" :: s.captures }

def endCapture : Exec σ String := do
  let s ← get
  match s.captures with
  | text :: outer => do
      set { s with captures := outer }
      return text
  | [] => breakDown .noOpenCapture

/-! ## Scopes -/

/-- Opens a frame; frames are numbered from one. -/
def pushFrame (name : String) (kind : FrameKind) (span : Option Span) (values : Bindings) :
    Exec σ Unit :=
  modify fun s =>
    let number := s.frameCount + 1
    let frame : Frame := ⟨name, kind, .numbered number, span, values⟩
    { s with
      frameCount := number
      frames := frame :: s.frames
      host := s.host.note (.opened frame) }

def popFrame : Exec σ Unit := do
  let s ← get
  match ScopeStack.pop s.frames with
  | .ok (_, outer) => set { s with frames := outer }
  | .error fault => internal (.scope fault) none

def bind (name value : String) : Exec σ Unit := do
  let s ← get
  match ScopeStack.bind name value s.frames with
  | .ok frames => set { s with frames := frames }
  | .error fault => internal (.scope fault) none

/-- Bindings are seen before global variables. -/
def lookup (c : Setting σ) (name : String) (span : Option Span) : Exec σ String := do
  let s ← get
  match ScopeStack.lookup name s.frames <|> c.environment.findVariable name with
  | some value => return value
  | none => fail (.undefinedVariable name) span

/-! ## Instructions -/

/-- The effect of an action, `call` being what calls a macro. -/
def perform (c : Setting σ) (call : Option Span → String → Nat → Exec σ Unit)
    (span : Option Span) :
    Action → Exec σ Unit
  | .emitLiteral text => write c text
  | .emitVar name => do write c (← lookup c name span)
  | .beginMacroCall name block => call span name block
  | .endMacroCall => popFrame
  | .pushScope => pushFrame "<scope>" .scope span []
  | .popScope => popFrame
  | .beginCapture => beginCapture
  | .endCapture name => do bind name (← endCapture)
  | .comment _ => pure ()
  | .nop => internal (.unknownInstruction Action.nop.opcode) span

/-- Runs a body once for each item, the first being number `index`. -/
def iterate (array : String) (span : Option Span) (body : Exec σ Unit) :
    Nat → List String → Exec σ Unit
  | _, [] => pure ()
  | index, item :: items => do
      pushFrame (array ++ "[" ++ toString index ++ "]") .iteration span
        [(Binding.index, toString index), (Binding.item, item)]
      body
      popFrame
      iterate array span body (index + 1) items

def runCode (c : Setting σ) (call : Option Span → String → Nat → Exec σ Unit) :
    Code → Exec σ Unit
  | .done => pure ()
  | .step action span rest => do
      logStep c (.of action span)
      perform c call span action
      runCode c call rest
  | .loop opening array body closing rest => do
      logStep c ⟨.beginArrayIter array, opening⟩
      match c.environment.findArray array with
      | none => fail (.undefinedArray array) opening
      | some items => do
          emit c (.arrayIter ⟨array, items, opening⟩)
          iterate array opening (runCode c call body) 0 items
      logStep c ⟨.endArrayIter, closing⟩
      runCode c call rest

/-- Matches the iterations of a fragment, and then runs it. -/
def runFragment (c : Setting σ) (call : Option Span → String → Nat → Exec σ Unit)
    (instructions : List Instruction) : Exec σ Unit :=
  match Code.ofInstructions instructions with
  | .ok code => runCode c call code
  | .error fault => internal (.iteration fault) fault.span

/-- Calls a macro; calls may be nested as deep as `depth`. -/
def callMacro (c : Setting σ) (macros : MacroTable) :
    Nat → Option Span → String → Nat → Exec σ Unit
  | 0, _, _, _ => breakDown .callsTooDeep
  | depth + 1, span, name, block =>
      match macros.get? block name with
      | none => breakDown (.missingMacro block name)
      | some m => do
          beginCapture
          runFragment c (callMacro c macros depth) m.pattern
          let pattern ← endCapture
          emit c (.macroCall ⟨m.name, m.block, span, pattern⟩)
          pushFrame ("?" ++ m.name) .call span [(Binding.pattern, pattern)]
          runFragment c (callMacro c macros depth) m.body

/-- Calls that do not recur are never nested deeper than there are macros. -/
def callDepth (macros : MacroTable) : Nat :=
  macros.size + 1000

def program (c : Setting σ) (p : Program) : Exec σ Unit := do
  emit c (.programStart p)
  runFragment c (callMacro c p.macros (callDepth p.macros)) p.instructions
  emit c .programEnd

end Exec

/-- The end of a run: the error it failed with, if it did, and the state it left. -/
structure Outcome (σ : Type) where
  error : Option RuntimeError
  state : State σ

namespace Fault

/-- A breakdown is reported at the last step. -/
def toError (lastSpan : Option Span) : Fault → RuntimeError
  | error e => e
  | breakdown b => ⟨.internal (.breakdown b.text), lastSpan, none⟩

end Fault

namespace Outcome

variable {σ : Type}

/-- Reports an error to the listeners; should one of them fail, its error takes
the place of the first. -/
def failed (c : Setting σ) (fault : Fault) (s : State σ) : Outcome σ :=
  let error := (fault.toError s.lastSpan).stamp s.lastIndex
  match Exec.emit c (.onError error) s with
  | .ok _ s => ⟨some error, s⟩
  | .error fault s => ⟨some (fault.toError s.lastSpan), s⟩

end Outcome

namespace Program

variable {σ : Type}

def run (p : Program) (c : Setting σ) (world : σ) : Outcome σ :=
  match Exec.program c p (State.initial world) with
  | .ok _ s => ⟨none, s⟩
  | .error fault s => Outcome.failed c fault s

end Program

end Stencil
