import Stencil.Machine.Run

/-!
# Machines that last

A machine outlasts its runs.  From one run to the next it holds what the run has left:
frames, captures, the log and the program.  A run begins by clearing all of this.

The iterations of a fragment are matched when the fragment is first run; the code is
then kept, under the address of the fragment.  An address stands for one fragment as
long as its program is held, and may come to stand for another one after that.
-/

namespace Stencil

/-- Where a fragment stands in a program. -/
inductive Place where
  | instructions
  | pattern (block : Nat) (name : String)
  | body (block : Nat) (name : String)
  deriving DecidableEq

namespace Program

def fragment? (p : Program) : Place → Option (List Instruction)
  | .instructions => some p.instructions
  | .pattern block name => (p.macros.get? block name).map Macro.pattern
  | .body block name => (p.macros.get? block name).map Macro.body

end Program

/-- A program that is held in memory.  Two fragments that have one address are the same. -/
structure Stored (κ : Type) where
  program : Program
  address : Place → κ
  same : ∀ {place other : Place} {first second : List Instruction},
    program.fragment? place = some first → program.fragment? other = some second →
    address place = address other → second = first

structure Machine (κ : Type) where
  name : String
  environment : Environment
  verbose : Bool
  frames : ScopeStack
  captures : List String
  frameCount : Nat
  log : Array LogEntry
  program : Option (Stored κ)
  /-- Held in a run only. -/
  sink : Option Sink
  /-- The code of fragments by their addresses. -/
  matched : List (κ × Code)

/-- Instructions that a machine executes. -/
abbrev Running (κ σ : Type) := EStateM Fault (Machine κ × Host σ)

/-- A way to execute the fragment at an address, given what calls a macro. -/
abbrev Executor (κ σ : Type) :=
  Setting σ → (Option Span → String → Nat → Running κ σ Unit) → κ → List Instruction →
    Running κ σ Unit

/-- The end of a run, and what the machine holds after it. -/
structure Ending (κ σ : Type) where
  error : Option RuntimeError
  machine : Machine κ
  host : Host σ

namespace Stored

/-- Every fragment at an address of its own. -/
def apart (p : Program) : Stored Place where
  program := p
  address := id
  same := by
    intro place other first second hfirst hsecond hplace
    have hother : place = other := hplace
    rw [hother, hsecond] at hfirst
    exact Option.some.inj hfirst

end Stored

/-- Where there is no sink, what is written is refused without a word. -/
def Sink.absent : Sink :=
  fun _ _ => some ""

namespace Machine

variable {κ σ α : Type}

def new (name : String) (environment : Environment) (verbose : Bool) : Machine κ :=
  ⟨name, environment, verbose, [], [], 0, #[], none, none, []⟩

/-- Every variable and array that the machine renders with. -/
def dump (m : Machine κ) : String :=
  m.environment.dump

/-- The machine at the beginning of a run. -/
def clear (sink : Sink) (stored : Stored κ) (m : Machine κ) : Machine κ :=
  { m with
    frames := []
    captures := []
    frameCount := 0
    log := #[]
    program := some stored
    sink := some sink
    matched := [] }

def setting (registry : Registry σ) (m : Machine κ) : Setting σ :=
  ⟨m.name, m.environment, registry, m.sink.getD Sink.absent, m.verbose⟩

/-- What instructions see of the machine, but for its program. -/
def state (m : Machine κ) (host : Host σ) : State σ :=
  ⟨m.frames, m.captures, m.frameCount, m.log, host⟩

/-- The machine with what instructions have changed. -/
def keep (m : Machine κ) (s : State σ) : Machine κ :=
  { m with
    frames := s.frames
    captures := s.captures
    frameCount := s.frameCount
    log := s.log }

/-- The macro of that block and name in the program that is run. -/
def macro? (m : Machine κ) (block : Nat) (name : String) : Option (Stored κ × Macro) :=
  m.program.bind fun stored =>
    (stored.program.macros.get? block name).map fun target => (stored, target)

/-! ## Execution -/

def lift (x : Exec σ α) : Running κ σ α := fun (m, host) =>
  match x (m.state host) with
  | .ok a s => .ok a (m.keep s, s.host)
  | .error fault s => .error fault (m.keep s, s.host)

/-- The effect of an action, `call` being what calls a macro. -/
def perform (c : Setting σ) (call : Option Span → String → Nat → Running κ σ Unit)
    (span : Option Span) : Action → Running κ σ Unit
  | .beginMacroCall name block => call span name block
  | action => lift (Exec.perform c (fun _ _ _ => pure ()) span action)

/-- Runs a body once for each item, the first being number `index`. -/
def iterate (array : String) (span : Option Span) (body : Running κ σ Unit) :
    Nat → List String → Running κ σ Unit
  | _, [] => pure ()
  | index, item :: items => do
      lift (Exec.pushFrame (array ++ "[" ++ toString index ++ "]") .iteration span
        [(Binding.index, toString index), (Binding.item, item)])
      body
      lift Exec.popFrame
      iterate array span body (index + 1) items

def runCode (c : Setting σ) (call : Option Span → String → Nat → Running κ σ Unit) :
    Code → Running κ σ Unit
  | .done => pure ()
  | .step action span rest => do
      lift (Exec.logStep c (.of action span))
      perform c call span action
      runCode c call rest
  | .loop opening array body closing rest => do
      lift (Exec.logStep c ⟨.beginArrayIter array, opening⟩)
      match c.environment.findArray array with
      | none => lift (Exec.fail (.undefinedArray array) opening)
      | some items => do
          lift (Exec.emit c (.arrayIter ⟨array, items, opening⟩))
          iterate array opening (runCode c call body) 0 items
      lift (Exec.logStep c ⟨.endArrayIter, closing⟩)
      runCode c call rest

section Executor

variable (x : Executor κ σ)

/-- Calls a macro of the program that is run; calls may be nested as deep as `depth`. -/
def callMacro (c : Setting σ) : Nat → Option Span → String → Nat → Running κ σ Unit
  | 0, _, _, _ => lift (Exec.breakDown .callsTooDeep)
  | depth + 1, span, name, block => do
      let (m, _) ← get
      match m.macro? block name with
      | none => lift (Exec.breakDown (.missingMacro block name))
      | some (stored, target) => do
          lift Exec.beginCapture
          x c (callMacro c depth) (stored.address (.pattern block name)) target.pattern
          let pattern ← lift Exec.endCapture
          lift (Exec.emit c (.macroCall ⟨target.name, target.block, span, pattern⟩))
          lift (Exec.pushFrame ("?" ++ target.name) .call span [(Binding.pattern, pattern)])
          x c (callMacro c depth) (stored.address (.body block name)) target.body

def execute (c : Setting σ) (stored : Stored κ) : Running κ σ Unit := do
  lift (Exec.emit c (.programStart stored.program))
  x c (callMacro x c (Exec.callDepth stored.program.macros)) (stored.address .instructions)
    stored.program.instructions
  lift (Exec.emit c .programEnd)

/-- Clears the machine and runs a program in it.  Whether the run fails or not, the machine
holds on to what it has come to, but not to the sink. -/
def runWith (registry : Registry σ) (sink : Sink) (stored : Stored κ) (m : Machine κ)
    (world : σ) : Ending κ σ :=
  let m := m.clear sink stored
  let c := m.setting registry
  match execute x c stored (m, Host.initial world) with
  | .ok _ (m, host) => ⟨none, { m with sink := none }, host⟩
  | .error fault (m, host) =>
      let outcome := Outcome.failed c fault (m.state host)
      ⟨outcome.error, { m.keep outcome.state with sink := none }, outcome.state.host⟩

end Executor

variable [DecidableEq κ]

/-- The code of the fragment at an address.  It is kept unless its iterations do not match. -/
def code (address : κ) (instructions : List Instruction) : Running κ σ Code := do
  let (m, host) ← get
  match m.matched.lookup address with
  | some code => return code
  | none =>
      match Code.ofInstructions instructions with
      | .ok code => do
          set ({ m with matched := (address, code) :: m.matched }, host)
          return code
      | .error fault => lift (Exec.internal (.iteration fault) fault.span)

/-- Executes a fragment as the code that is kept for it. -/
def runFragment : Executor κ σ := fun c call address instructions => do
  runCode c call (← code address instructions)

/-- A run in which fragments are executed as code. -/
def run (registry : Registry σ) (sink : Sink) (stored : Stored κ) (m : Machine κ)
    (world : σ) : Ending κ σ :=
  runWith runFragment registry sink stored m world

end Machine

end Stencil
