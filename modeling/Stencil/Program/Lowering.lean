import Stencil.Document
import Stencil.Program
import Stencil.Program.StringBody

/-!
# Lowering documents to programs

| construct                  | instructions                                       |
|----------------------------|----------------------------------------------------|
| host text                  | emit it, unless it is empty                        |
| comment                    | a comment                                          |
| identifier                 | emit the variable                                  |
| string                     | emit its pieces, in order                          |
| array                      | iterate, emitting each item                        |
| array piped into a macro   | iterate, calling the macro                         |
| operand piped into a macro | in a scope, capture the operand as the item and    |
|                            | zero as the index, then call the macro             |

Definitions emit nothing: they go to the macro table, and may stand after the
calls that use them.  A macro is known in its own block only.
-/

namespace Stencil

inductive SemanticError where
  | duplicateMacro (name : String) (first duplicate : Span)
  | unknownMacro (name : String) (span : Span)
  | malformedInterpolation (fault : InterpolationFault) (span : Span)
  deriving DecidableEq

namespace SemanticError

def span : SemanticError → Span
  | duplicateMacro _ _ duplicate => duplicate
  | unknownMacro _ span => span
  | malformedInterpolation _ span => span

def message : SemanticError → String
  | duplicateMacro name _ _ => "macro '@" ++ name ++ "' is defined more than once"
  | unknownMacro name _ => "unknown macro '?" ++ name ++ "'"
  | malformedInterpolation fault _ => "malformed interpolation: " ++ fault.reason

end SemanticError

namespace Piece

/-- The instruction for a piece of the literal that covers `literal`; the
offsets of the piece count from after the opening quote. -/
def lower (literal : Span) : Piece → Instruction
  | text start stop value =>
      .of (.emitLiteral (String.ofList value)) (literal.slice (start + 1) (stop + 1))
  | interpolation start stop name =>
      .of (.emitVar (String.ofList name)) (literal.slice (start + 1) (stop + 1))

end Piece

namespace MalformedInterpolation

def inLiteral (literal : Span) (e : MalformedInterpolation) : SemanticError :=
  .malformedInterpolation e.fault (literal.slice (e.start + 1) (e.stop + 1))

end MalformedInterpolation

namespace Operand

def lower : Operand → Except SemanticError (List Instruction)
  | identifier span name => .ok [.of (.emitVar name) span]
  | string span raw =>
      match StringBody.pieces 0 raw.toList with
      | .ok pieces => .ok (pieces.map (Piece.lower span))
      | .error e => .error (e.inLiteral span)

end Operand

namespace MacroRef

/-- The call of a macro of block `block`. -/
def lower (block : Nat) (target : MacroRef) : List Instruction :=
  [.of (.beginMacroCall target.name block) target.span, .of .endMacroCall target.span]

end MacroRef

namespace Expression

def lower (block : Nat) : Expression → Except SemanticError (List Instruction)
  | plain (.operand o) => o.lower
  | plain (.array span name) =>
      .ok [⟨.beginArrayIter name, span⟩, .of (.emitVar Binding.item) span,
        ⟨.endArrayIter, span⟩]
  | pipe (.array span name) target =>
      .ok (⟨.beginArrayIter name, span⟩ :: (target.lower block ++ [⟨.endArrayIter, span⟩]))
  | pipe (.operand o) target => do
      let value ← o.lower
      return [.of .pushScope o.span, .of .beginCapture o.span] ++ value ++
        [.of (.endCapture Binding.item) o.span, .of .beginCapture o.span,
          .of (.emitLiteral "0") o.span, .of (.endCapture Binding.index) o.span] ++
        target.lower block ++ [.of .popScope o.span]

end Expression

namespace Statement

/-- A definition emits nothing where it stands. -/
def lower (block : Nat) : Statement → Except SemanticError (List Instruction)
  | comment span text => .ok [.of (.comment text) span]
  | definition _ _ _ _ => .ok []
  | expression e => e.lower block

/-- The macro that a statement defines, if it defines one. -/
def toMacro (block : Nat) : Statement → Except SemanticError (Option Macro)
  | definition span name pattern body => do
      let pattern ← pattern.lower
      let body ← body.lower
      return some ⟨name, block, span, pattern, body⟩
  | _ => .ok none

/-- The name and the span of a definition. -/
def definition? : Statement → Option (String × Span)
  | definition span name _ _ => some (name, span)
  | _ => none

/-- The macro that a statement calls. -/
def call? : Statement → Option MacroRef
  | expression (.pipe _ target) => some target
  | _ => none

end Statement

namespace Block

def definitions (b : Block) : List (String × Span) :=
  b.statements.filterMap Statement.definition?

def calls (b : Block) : List MacroRef :=
  b.statements.filterMap Statement.call?

/-- No name is defined twice, `seen` being the definitions that stand before. -/
def checkDistinct (seen : List (String × Span)) :
    List (String × Span) → Except SemanticError Unit
  | [] => .ok ()
  | (name, span) :: rest =>
      match seen.lookup name with
      | some first => .error (.duplicateMacro name first span)
      | none => checkDistinct ((name, span) :: seen) rest

/-- Every macro that is called is among the definitions. -/
def checkCalls (definitions : List (String × Span)) :
    List MacroRef → Except SemanticError Unit
  | [] => .ok ()
  | target :: rest =>
      if (definitions.lookup target.name).isSome then checkCalls definitions rest
      else .error (.unknownMacro target.name target.span)

/-- The macros and the instructions of a block.  Its definitions are checked and
lowered before its other statements. -/
def lower (b : Block) : Except SemanticError (List Macro × List Instruction) := do
  checkDistinct [] b.definitions
  checkCalls b.definitions b.calls
  let macros ← b.statements.mapM (Statement.toMacro b.index)
  let code ← b.statements.mapM (Statement.lower b.index)
  return (macros.filterMap id, code.flatten)

end Block

namespace Item

def lower : Item → Except SemanticError (List Macro × List Instruction)
  | hostText span text =>
      .ok ([], if text = "" then [] else [.of (.emitLiteral text) span])
  | block b => b.lower

end Item

namespace Document

def lower (document : Document) : Except SemanticError Program := do
  let parts ← document.items.mapM Item.lower
  return ⟨(parts.map Prod.snd).flatten,
    MacroTable.ofList (parts.map Prod.fst).flatten⟩

end Document

end Stencil
