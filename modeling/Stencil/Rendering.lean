import Stencil.Compile
import Stencil.Machine.Traceback
import Stencil.Program.Listing

/-!
# Rendering

A source is rendered by compiling it and running the program.  Output written
before a failure is kept.
-/

namespace Stencil

inductive Rendering (σ : Type) where
  | rejected (error : CompileError)
  | ran (environment : Environment) (program : Program) (outcome : Outcome σ)

def render {σ : Type} (c : Setting σ) (source : String) (world : σ) : Rendering σ :=
  match Program.compile source with
  | .error e => .rejected e
  | .ok program => .ran c.environment program (program.run c world)

namespace Rendering

variable {σ : Type}

def output : Rendering σ → String
  | rejected _ => ""
  | ran _ _ outcome => String.join outcome.state.host.written.toList

def succeeded : Rendering σ → Bool
  | rejected _ => false
  | ran _ _ outcome => outcome.error.isNone

def diagnostic? : Rendering σ → Option Diagnostic
  | rejected e => some e.diagnostic
  | ran _ _ outcome => outcome.error.map RuntimeError.diagnostic

/-- What is shown of a failure; nothing of a success. -/
def diagnosticText (label source : String) (r : Rendering σ) : String :=
  (r.diagnostic?.map (Diagnostic.render label source)).getD ""

/-- The environment and the program, once the source compiles. -/
def console : Rendering σ → String
  | rejected _ => ""
  | ran environment program _ => environment.dump ++ "\n" ++ program.listing

/-- Only runs have tracebacks. -/
def traceback? (label source : String) (verbose : Bool) : Rendering σ → Option String
  | rejected _ => none
  | ran _ _ outcome => outcome.error.map (outcome.state.traceback label source verbose)

def tracebackJson? (label : String) : Rendering σ → Option String
  | rejected _ => none
  | ran _ _ outcome => outcome.error.map (outcome.state.tracebackJson label)

end Rendering

end Stencil
