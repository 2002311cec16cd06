import Stencil.Span

/-!
# Documents

A document is host text interleaved with script blocks.  A block holds
statements: comments, definitions of macros, and expressions.  An expression
shows a string, a variable or an array, or hands one of them to a macro of the
same block.
-/

namespace Stencil

inductive Operand where
  /-- A string literal, its inside as written. -/
  | string (span : Span) (raw : String)
  | identifier (span : Span) (name : String)
  deriving DecidableEq

/-- What an expression starts from: one value, or every item of an array. -/
inductive Source where
  | operand (operand : Operand)
  | array (span : Span) (name : String)
  deriving DecidableEq

structure MacroRef where
  span : Span
  name : String
  deriving DecidableEq

inductive Expression where
  | plain (source : Source)
  | pipe (source : Source) (target : MacroRef)
  deriving DecidableEq

inductive Statement where
  | comment (span : Span) (text : String)
  | definition (span : Span) (name : String) (pattern body : Operand)
  | expression (expression : Expression)
  deriving DecidableEq

/-- A script block; blocks are numbered from zero. -/
structure Block where
  span : Span
  index : Nat
  statements : List Statement
  deriving DecidableEq

inductive Item where
  | hostText (span : Span) (text : String)
  | block (block : Block)
  deriving DecidableEq

structure Document where
  span : Span
  items : List Item
  deriving DecidableEq

namespace Operand

def span : Operand → Span
  | string span _ => span
  | identifier span _ => span

end Operand

namespace Source

def span : Source → Span
  | operand o => o.span
  | array span _ => span

end Source

namespace Expression

def span : Expression → Span
  | plain source => source.span
  | pipe source target => source.span.join target.span

end Expression

namespace Statement

def span : Statement → Span
  | comment span _ => span
  | definition span _ _ _ => span
  | expression e => e.span

end Statement

namespace Item

def span : Item → Span
  | hostText span _ => span
  | block b => b.span

end Item

namespace Document

def blocks (document : Document) : List Block :=
  document.items.filterMap fun
    | .hostText _ _ => none
    | .block b => some b

end Document

end Stencil
