import Stencil.Code
import Stencil.Scope

/-!
# Runtime errors

A run that fails does so with a cause, the place of the instruction at fault if
it is known, and the index of the step at which it failed.  The causes include
the failures of hooks, and the faults of a machine that executes code of a shape
no source compiles to.
-/

namespace Stencil

inductive EventKind where
  | programStart
  | programEnd
  | onError
  | macroCall
  | arrayIter
  deriving DecidableEq

/-- The activity of a hook that failed. -/
inductive HookPoint where
  | event (kind : EventKind)
  | stepRule
  | outputFilter
  deriving DecidableEq

/-- An interruption from outside the rules of the machine. -/
inductive Breakdown where
  | sinkRefused (text : String)
  | missingMacro (block : Nat) (name : String)
  | noOpenCapture
  | callsTooDeep
  deriving DecidableEq

inductive InternalFault where
  | scope (fault : ScopeFault)
  | iteration (fault : IterationFault)
  | unknownInstruction (opcode : String)
  | breakdown (text : String)
  | raised (message : String)
  deriving DecidableEq

inductive Cause where
  | raised (message : String)
  | undefinedVariable (name : String)
  | undefinedArray (name : String)
  | extension (point : HookPoint) (reason : String)
  | internal (fault : InternalFault)
  deriving DecidableEq

structure RuntimeError where
  cause : Cause
  span : Option Span := none
  stepIndex : Option Nat := none
  deriving DecidableEq

/-- What a handler may fail with.  Runtime errors leave the run as they are, and
all others as failures of the extension. -/
inductive HookError where
  | runtime (error : RuntimeError)
  | extension (message : String)
  | template (message : String)
  | ordinary (message : String)
  deriving DecidableEq

namespace EventKind

def all : List EventKind :=
  [programStart, programEnd, onError, macroCall, arrayIter]

def name : EventKind → String
  | programStart => "program_start"
  | programEnd => "program_end"
  | onError => "on_error"
  | macroCall => "macro_call"
  | arrayIter => "array_iter"

def ofName? (name : String) : Option EventKind :=
  all.find? (·.name == name)

theorem mem_all (kind : EventKind) : kind ∈ all := by
  cases kind <;> decide

end EventKind

namespace HookPoint

def message (reason : String) : HookPoint → String
  | event kind => "Extension hook '" ++ kind.name ++ "' failed: " ++ reason
  | stepRule => "Extension step rule failed: " ++ reason
  | outputFilter => "Extension output filter failed: " ++ reason

end HookPoint

namespace IterationFault

def message : IterationFault → String
  | endWithoutBegin _ => "END_ARRAY_ITER without BEGIN_ARRAY_ITER"
  | beginWithoutEnd _ => "BEGIN_ARRAY_ITER without END_ARRAY_ITER"

def span : IterationFault → Option Span
  | endWithoutBegin span => span
  | beginWithoutEnd span => span

end IterationFault

namespace InternalFault

def message : InternalFault → String
  | scope fault => fault.message
  | iteration fault => fault.message
  | unknownInstruction opcode => "unknown instruction " ++ opcode
  | breakdown text => "Internal VM error: " ++ text
  | raised message => message

end InternalFault

namespace Cause

def message : Cause → String
  | raised message => message
  | undefinedVariable name => "undefined variable '" ++ name ++ "'"
  | undefinedArray name => "undefined array '" ++ name ++ "'"
  | extension point reason => point.message reason
  | internal fault => fault.message

/-- The name under which a cause is reported. -/
def title : Cause → String
  | raised _ => "PipaRuntimeError"
  | undefinedVariable _ => "UndefinedVariable"
  | undefinedArray _ => "UndefinedArray"
  | extension _ _ => "ExtensionFailure"
  | internal _ => "InternalError"

/-- The rule of the machine that a cause belongs to. -/
def rule : Cause → String
  | raised _ => "runtime"
  | undefinedVariable _ => "EMIT_VAR"
  | undefinedArray _ => "BEGIN_ARRAY_ITER"
  | extension _ _ => "EXT"
  | internal _ => "internal"

end Cause

namespace RuntimeError

def message (e : RuntimeError) : String :=
  e.cause.message

/-- The error with a step index, unless it has one. -/
def stamp (step : Option Nat) (e : RuntimeError) : RuntimeError :=
  { e with stepIndex := e.stepIndex <|> step }

end RuntimeError

namespace HookError

def message : HookError → String
  | runtime e => e.message
  | extension message => message
  | template message => message
  | ordinary message => message

end HookError

end Stencil
