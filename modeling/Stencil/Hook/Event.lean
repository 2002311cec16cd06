import Stencil.RuntimeError

/-!
# Events, hooks and what is seen of a run

A hook is called at an event, after a step or with a text on its way out.  It
has a state of its own, of a type that the machine does not look into, and it
cannot change the machine.

The host of a run keeps that state, the chunks that reached the sink, and a
journal: every call of a hook, every chunk written, every step logged and every
frame opened, in order.
-/

namespace Stencil

/-- The call of a macro, whose pattern is rendered already. -/
structure MacroCall where
  name : String
  block : Nat
  span : Option Span
  pattern : String
  deriving DecidableEq

/-- The iteration of an array, before its first item. -/
structure ArrayIter where
  array : String
  items : List String
  span : Option Span
  deriving DecidableEq

inductive Event where
  | programStart (program : Program)
  | programEnd
  | onError (error : RuntimeError)
  | macroCall (call : MacroCall)
  | arrayIter (iteration : ArrayIter)
  deriving DecidableEq

/-- A step that was logged. -/
structure StepContext where
  index : Nat
  opcode : String
  span : Option Span
  frame : Option FrameId
  deriving DecidableEq

/-- Where a hook comes from: the extension that owns it, and its tag if it has
one. -/
structure Origin where
  owner : String
  tag : Option String := none
  deriving DecidableEq

/-- What a journal holds: calls of listeners, step rules and filters, and what
the machine did. -/
inductive Record where
  | event (origin : Origin) (event : Event)
  | step (origin : Origin) (context : StepContext)
  | filter (origin : Origin) (text : String)
  | write (text : String)
  | logged (index : Nat)
  | opened (frame : Frame)
  deriving DecidableEq

structure Host (σ : Type) where
  world : σ
  journal : Array Record
  written : Array String

/-- What an output filter gives: a text, or something that is none. -/
inductive Filtered where
  | text (text : String)
  | foreign (typeName : String)
  deriving DecidableEq

/-- A hook is told which machine it is called for. -/
structure Hook (σ α β : Type) where
  priority : Int := 0
  origin : Origin
  handler : String → α → EStateM HookError σ β

abbrev HostM (σ : Type) := EStateM HookError (Host σ)

namespace Event

def kind : Event → EventKind
  | programStart _ => .programStart
  | programEnd => .programEnd
  | onError _ => .onError
  | macroCall _ => .macroCall
  | arrayIter _ => .arrayIter

end Event

namespace Host

variable {σ : Type}

def initial (world : σ) : Host σ :=
  ⟨world, #[], #[]⟩

def note (record : Record) (host : Host σ) : Host σ :=
  { host with journal := host.journal.push record }

def write (text : String) (host : Host σ) : Host σ :=
  { host with
    journal := host.journal.push (.write text)
    written := host.written.push text }

end Host

namespace Hook

variable {σ α β : Type}

/-- Records the call, and then makes it. -/
def call (machine : String) (record : Origin → Record) (hook : Hook σ α β) (a : α) :
    HostM σ β := fun host =>
  let host := host.note (record hook.origin)
  match hook.handler machine a host.world with
  | .ok b world => .ok b { host with world := world }
  | .error e world => .error e { host with world := world }

end Hook

end Stencil
