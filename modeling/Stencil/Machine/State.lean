import Stencil.Environment
import Stencil.Hook.Registry
import Stencil.Text.Literal

/-!
# The state of a machine

A machine executes instructions over a stack of scopes, a stack of captures,
which hold the text that is rendered but not written, and a log of its steps.
-/

namespace Stencil

/-- A logged step: the instruction, the innermost frame before it, and every
visible binding if these are recorded. -/
structure LogEntry where
  index : Nat
  frame : FrameId
  instruction : Instruction
  snapshot : Option Bindings
  deriving DecidableEq

/-- Where the output goes.  Given the chunks it holds and a new one, a sink may
refuse it, with a text that says why. -/
abbrev Sink := Array String → String → Option String

/-- What stays the same in a run. -/
structure Setting (σ : Type) where
  machine : String
  environment : Environment
  registry : Registry σ
  sink : Sink
  verbose : Bool

structure State (σ : Type) where
  frames : ScopeStack
  /-- Innermost first. -/
  captures : List String
  frameCount : Nat
  log : Array LogEntry
  host : Host σ

/-- What stops a run: an error, or a breakdown that becomes one when it leaves
the machine. -/
inductive Fault where
  | error (error : RuntimeError)
  | breakdown (breakdown : Breakdown)
  deriving DecidableEq

abbrev Exec (σ : Type) := EStateM Fault (State σ)

namespace Sink

def accepting : Sink :=
  fun _ _ => none

/-- Refuses every chunk while it holds exactly `n`. -/
def failingAt (n : Nat) (reason : String) : Sink :=
  fun held _ => if held.size = n then some reason else none

end Sink

namespace Breakdown

def text : Breakdown → String
  | sinkRefused text => text
  | missingMacro block name => "(" ++ toString block ++ ", " ++ Text.literal name ++ ")"
  | noOpenCapture => "pop from empty list"
  | callsTooDeep => "maximum recursion depth exceeded"

end Breakdown

namespace LogEntry

def span (entry : LogEntry) : Option Span :=
  entry.instruction.span

def stateId (entry : LogEntry) : String :=
  "s_" ++ Text.padded 6 entry.index

end LogEntry

namespace State

variable {σ : Type}

def initial (world : σ) : State σ :=
  ⟨[], [], 0, #[], Host.initial world⟩

def lastSpan (s : State σ) : Option Span :=
  s.log.back?.bind LogEntry.span

def lastIndex (s : State σ) : Option Nat :=
  s.log.back?.map LogEntry.index

/-- The innermost frame, or the root outside of all scopes. -/
def frame (s : State σ) : FrameId :=
  (s.frames.head?.map Frame.id).getD .root

end State

end Stencil
