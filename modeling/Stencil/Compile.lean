import Stencil.Diagnostic
import Stencil.Document.OfTokens
import Stencil.Program.Lowering
import Stencil.Token.Stream

/-!
# Compiling sources

A source is compiled by way of its tokens and its document.  What goes wrong is
an error of structure or an error of meaning, and either is reported as a
diagnostic.
-/

namespace Stencil

inductive CompileError where
  | structural (error : SyntaxError)
  | semantic (error : SemanticError)
  deriving DecidableEq

namespace CompileError

def message : CompileError → String
  | structural e => e.message
  | semantic e => e.message

def span : CompileError → Span
  | structural e => e.span
  | semantic e => e.span

/-- A second definition is reported with a note on the first. -/
def notes : CompileError → List Note
  | semantic (.duplicateMacro name first _) =>
      [⟨first, "'@" ++ name ++ "' first defined here"⟩]
  | _ => []

def diagnostic (e : CompileError) : Diagnostic where
  message := e.message
  span := some e.span
  notes := e.notes

end CompileError

namespace Program

def ofTokens (tokens : List Token) : Except CompileError Program :=
  match Document.ofTokens tokens with
  | .error e => .error (.structural e)
  | .ok document =>
      match document.lower with
      | .error e => .error (.semantic e)
      | .ok program => .ok program

def compile (source : String) : Except CompileError Program :=
  ofTokens (tokenize source)

end Program

end Stencil
