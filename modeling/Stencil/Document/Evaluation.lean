import Stencil.Document
import Stencil.Environment
import Stencil.Program
import Stencil.Program.StringBody
import Stencil.Scope

/-!
# The meaning of documents

What a document renders to, said on the document itself: the text that is
written, and the first undefined name at which writing stops, if there is one.

* Host text stands for itself; comments and definitions write nothing.
* An identifier writes its value, and a string its pieces from left to right.
* An array writes its items, in order.
* An array piped into a macro applies it to each item, with the item and its
  number bound.
* An operand piped into a macro is rendered to a text without being written; the
  macro is then applied once, to that text as item number zero.

A macro renders its pattern to a text without writing it, and then writes its
body with that text bound.  Bound names go before global variables.
-/

namespace Stencil

/-- A name without a value, and the place where its value was needed. -/
inductive Undefined where
  | scalar (name : String) (span : Span)
  | array (name : String) (span : Span)
  deriving DecidableEq

structure Evaluation where
  output : String
  stopped : Option Undefined
  deriving DecidableEq

namespace Evaluation

/-- Writes a text. -/
def text (output : String) : Evaluation := ⟨output, none⟩

def stop (u : Undefined) : Evaluation := ⟨"", some u⟩

def nothing : Evaluation := text ""

/-- What follows is evaluated unless evaluation has stopped. -/
def andThen (first second : Evaluation) : Evaluation :=
  match first.stopped with
  | some _ => first
  | none => ⟨first.output ++ second.output, second.stopped⟩

def sequence : List Evaluation → Evaluation
  | [] => nothing
  | e :: es => e.andThen (sequence es)

/-- Goes on with the text of an evaluation, which is not written. -/
def captured (e : Evaluation) (next : String → Evaluation) : Evaluation :=
  match e.stopped with
  | some u => stop u
  | none => next e.output

end Evaluation

namespace Environment

/-- A name in the scope of local bindings. -/
def evaluate (env : Environment) (bound : Bindings) (name : String) (span : Span) :
    Evaluation :=
  match List.lookup name bound <|> env.findVariable name with
  | some value => .text value
  | none => .stop (.scalar name span)

end Environment

namespace Piece

def evaluate (env : Environment) (bound : Bindings) (literal : Span) : Piece → Evaluation
  | text _ _ value => .text (String.ofList value)
  | interpolation start stop name =>
      env.evaluate bound (String.ofList name) (literal.slice (start + 1) (stop + 1))

end Piece

namespace Operand

/-- A string whose pieces are malformed has no meaning, and writes nothing. -/
def evaluate (env : Environment) (bound : Bindings) : Operand → Evaluation
  | identifier span name => env.evaluate bound name span
  | string span raw =>
      match StringBody.pieces 0 raw.toList with
      | .ok pieces => .sequence (pieces.map (Piece.evaluate env bound span))
      | .error _ => .nothing

end Operand

namespace Block

/-- The pattern and the body of a macro. -/
def findMacro (b : Block) (name : String) : Option (Operand × Operand) :=
  b.statements.findSome? fun
    | .definition _ n pattern body => if n = name then some (pattern, body) else none
    | _ => none

def applyMacro (env : Environment) (b : Block) (name : String) (bound : Bindings) :
    Evaluation :=
  match b.findMacro name with
  | none => .nothing
  | some (pattern, body) =>
      (pattern.evaluate env bound).captured fun text =>
        body.evaluate env ((Binding.pattern, text) :: bound)

/-- Applies a macro to items, the first being number `index`. -/
def applyToItems (env : Environment) (b : Block) (name : String) :
    Nat → List String → Evaluation
  | _, [] => .nothing
  | index, item :: items =>
      (b.applyMacro env name
        [(Binding.index, toString index), (Binding.item, item)]).andThen
          (applyToItems env b name (index + 1) items)

def evaluateExpression (env : Environment) (b : Block) : Expression → Evaluation
  | .plain (.operand o) => o.evaluate env []
  | .plain (.array span name) =>
      match env.findArray name with
      | some items => .text (String.join items)
      | none => .stop (.array name span)
  | .pipe (.array span name) target =>
      match env.findArray name with
      | some items => b.applyToItems env target.name 0 items
      | none => .stop (.array name span)
  | .pipe (.operand o) target =>
      (o.evaluate env []).captured fun text =>
        b.applyMacro env target.name [(Binding.item, text), (Binding.index, "0")]

def evaluateStatement (env : Environment) (b : Block) : Statement → Evaluation
  | .expression e => b.evaluateExpression env e
  | _ => .nothing

end Block

namespace Item

def evaluate (env : Environment) : Item → Evaluation
  | hostText _ text => .text text
  | block b => .sequence (b.statements.map (b.evaluateStatement env))

end Item

namespace Document

def evaluate (env : Environment) (d : Document) : Evaluation :=
  .sequence (d.items.map (Item.evaluate env))

end Document

end Stencil
