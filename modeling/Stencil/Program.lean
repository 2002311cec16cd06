import Stencil.Span
import Stencil.Text.Quoted

/-!
# Programs

A program is a list of instructions and a table of macros.  An array iteration
stands between two instructions of its own; every other instruction is a single
action, also those that open and close a scope, a capture or a macro call.
-/

namespace Stencil

inductive Action where
  | emitLiteral (text : String)
  | emitVar (name : String)
  | beginMacroCall (name : String) (block : Nat)
  | endMacroCall
  | pushScope
  | popScope
  | beginCapture
  | endCapture (name : String)
  | comment (text : String)
  | nop
  deriving DecidableEq

inductive Operation where
  | act (action : Action)
  | beginArrayIter (array : String)
  | endArrayIter
  deriving DecidableEq

/-- An instruction made by hand need not come from a source. -/
structure Instruction where
  operation : Operation
  span : Option Span
  deriving DecidableEq

/-- A macro of one block: what renders its pattern, and what runs with the
rendered pattern bound. -/
structure Macro where
  name : String
  block : Nat
  span : Option Span
  pattern : List Instruction
  body : List Instruction
  deriving DecidableEq

/-- Macros by block and name, in the order of first definition. -/
structure MacroTable where
  entries : List Macro
  deriving DecidableEq

structure Program where
  instructions : List Instruction
  macros : MacroTable
  deriving DecidableEq

namespace Action

def opcode : Action → String
  | emitLiteral _ => "EMIT_LITERAL"
  | emitVar _ => "EMIT_VAR"
  | beginMacroCall _ _ => "BEGIN_MACRO_CALL"
  | endMacroCall => "END_MACRO_CALL"
  | pushScope => "PUSH_SCOPE"
  | popScope => "POP_SCOPE"
  | beginCapture => "BEGIN_CAPTURE"
  | endCapture _ => "END_CAPTURE"
  | comment _ => "COMMENT"
  | nop => "NOP"

def operand : Action → String
  | emitLiteral text => Text.quote text
  | emitVar name => name
  | beginMacroCall name _ => "?" ++ name
  | endCapture name => name
  | comment text => "# " ++ text
  | _ => ""

def opens : Action → Bool
  | beginMacroCall _ _ | pushScope | beginCapture => true
  | _ => false

def closes : Action → Bool
  | endMacroCall | popScope | endCapture _ => true
  | _ => false

end Action

namespace Operation

def opcode : Operation → String
  | act action => action.opcode
  | beginArrayIter _ => "BEGIN_ARRAY_ITER"
  | endArrayIter => "END_ARRAY_ITER"

def operand : Operation → String
  | act action => action.operand
  | beginArrayIter array => array
  | endArrayIter => ""

/-- Whether a bracket opens here. -/
def opens : Operation → Bool
  | act action => action.opens
  | beginArrayIter _ => true
  | endArrayIter => false

/-- Whether a bracket closes here. -/
def closes : Operation → Bool
  | act action => action.closes
  | beginArrayIter _ => false
  | endArrayIter => true

end Operation

namespace Instruction

def opcode (i : Instruction) : String :=
  i.operation.opcode

def operand (i : Instruction) : String :=
  i.operation.operand

/-- The instruction for one action. -/
def of (action : Action) (span : Option Span) : Instruction :=
  ⟨.act action, span⟩

end Instruction

namespace Macro

def hasKey (block : Nat) (name : String) (m : Macro) : Bool :=
  m.block == block && m.name == name

end Macro

namespace MacroTable

def empty : MacroTable := ⟨[]⟩

def size (table : MacroTable) : Nat :=
  table.entries.length

def get? (table : MacroTable) (block : Nat) (name : String) : Option Macro :=
  table.entries.find? (Macro.hasKey block name)

def insert (m : Macro) : List Macro → List Macro
  | [] => [m]
  | e :: es => if e.hasKey m.block m.name then m :: es else e :: insert m es

/-- A second macro of the same block and name takes the place of the first. -/
def define (table : MacroTable) (m : Macro) : MacroTable :=
  ⟨insert m table.entries⟩

theorem find?_insert (m : Macro) (es : List Macro) (block : Nat) (name : String) :
    (insert m es).find? (Macro.hasKey block name) =
      if m.block = block ∧ m.name = name then some m
      else es.find? (Macro.hasKey block name) := by
  have hkey : Macro.hasKey block name m = decide (m.block = block ∧ m.name = name) := by
    simp [Macro.hasKey, Bool.decide_and]
    rfl
  induction es with
  | nil =>
      by_cases h : m.block = block ∧ m.name = name
      · simp [insert, hkey, h]
      · simp [insert, hkey, h]
  | cons e es ih =>
      simp only [insert]
      split
      · rename_i he
        simp only [Macro.hasKey, Bool.and_eq_true, beq_iff_eq] at he
        by_cases h : m.block = block ∧ m.name = name
        · simp [hkey, h]
        · have hne : Macro.hasKey block name e = false := by
            simp only [Macro.hasKey, he.1, he.2]
            simpa [Bool.and_eq_false_iff] using h
          simp [hkey, h, hne]
      · rename_i he
        by_cases hk : Macro.hasKey block name e = true
        · have hne : ¬(m.block = block ∧ m.name = name) := by
            rintro ⟨rfl, rfl⟩
            exact he hk
          simp [hk, hne]
        · simp only [List.find?_cons, hk]
          exact ih

theorem get?_define (table : MacroTable) (m : Macro) (block : Nat) (name : String) :
    (table.define m).get? block name =
      if m.block = block ∧ m.name = name then some m else table.get? block name :=
  find?_insert m table.entries block name

def ofList (ms : List Macro) : MacroTable :=
  ms.foldl define empty

end MacroTable

namespace Binding

/-! The names that running a template binds. -/

def index : String := "_index_"

def item : String := "_item_"

/-- The rendered pattern, in the body of a macro. -/
def pattern : String := "_"

end Binding

end Stencil
