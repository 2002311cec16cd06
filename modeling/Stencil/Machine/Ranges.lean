import Stencil.Machine.Lasting

/-!
# Execution by positions

Instructions can also be executed where they stand.  Their iterations are matched from
left to right, with a stack of those that are open.  This gives a table, in which the
position of each beginning has the position of its end.  Instructions are then executed
in ranges: from one position to the next, and the table says where the body of an
iteration stops.

Execution goes astray at an end that it comes upon directly, at a beginning without an
end in the range, and past the instructions.  What is done there is left open, as
something that is given with the machine.
-/

namespace Stencil

/-- The iterations found so far. -/
structure Matching where
  /-- Beginnings with their ends, the last found first. -/
  table : List (Nat × Nat)
  /-- Beginnings that wait for their ends, innermost first. -/
  opened : List Nat
  deriving DecidableEq

namespace Matching

def read (m : Matching) (position : Nat) (i : Instruction) : Except IterationFault Matching :=
  match i.operation, m.opened with
  | .act _, _ => .ok m
  | .beginArrayIter _, opened => .ok { m with opened := position :: opened }
  | .endArrayIter, [] => .error (.endWithoutBegin i.span)
  | .endArrayIter, innermost :: outer => .ok ⟨(innermost, position) :: m.table, outer⟩

/-- Reads instructions of which the first has that position. -/
def readAll (m : Matching) (position : Nat) :
    List Instruction → Except IterationFault Matching
  | [] => .ok m
  | i :: is => do
      let m ← m.read position i
      m.readAll (position + 1) is

/-- The table, if nothing is left open. -/
def finish (instructions : List Instruction) (m : Matching) :
    Except IterationFault (List (Nat × Nat)) :=
  match m.opened with
  | [] => .ok m.table
  | innermost :: _ =>
      .error (.beginWithoutEnd (instructions[innermost]?.bind Instruction.span))

def ofInstructions (instructions : List Instruction) :
    Except IterationFault (List (Nat × Nat)) := do
  let m ← readAll ⟨[], []⟩ 0 instructions
  m.finish instructions

end Matching

/-- The iterations of code whose first instruction has that position, each as the
positions of its beginning and its end.  That which ends last is first. -/
def Code.table (position : Nat) : Code → List (Nat × Nat)
  | .done => []
  | .step _ _ rest => rest.table (position + 1)
  | .loop _ _ body _ rest =>
      let close := position + 1 + body.toInstructions.length
      rest.table (close + 1) ++ (position, close) :: body.table (position + 1)

namespace Machine

variable {κ σ : Type}

/-- Executes the instructions from `position` up to `stop`.  An iteration has to end in the
range. -/
def runRange (c : Setting σ) (stray : List Instruction → Nat → Running κ σ Unit)
    (call : Option Span → String → Nat → Running κ σ Unit) (instructions : List Instruction)
    (table : List (Nat × Nat)) (position stop : Nat) : Running κ σ Unit :=
  if position < stop then
    match instructions[position]? with
    | none => stray instructions position
    | some i => do
        lift (Exec.logStep c i)
        match i.operation with
        | .act action => do
            perform c call i.span action
            runRange c stray call instructions table (position + 1) stop
        | .endArrayIter => stray instructions position
        | .beginArrayIter array =>
            match table.lookup position with
            | none => stray instructions position
            | some close =>
                if position < close ∧ close < stop then do
                  match c.environment.findArray array with
                  | none => lift (Exec.fail (.undefinedArray array) i.span)
                  | some items => do
                      lift (Exec.emit c (.arrayIter ⟨array, items, i.span⟩))
                      iterate array i.span
                        (runRange c stray call instructions table (position + 1) close) 0 items
                  match instructions[close]? with
                  | none => stray instructions close
                  | some closing => lift (Exec.logStep c closing)
                  runRange c stray call instructions table (close + 1) stop
                else
                  stray instructions position
  else
    pure ()
termination_by stop - position

variable [DecidableEq κ] (stray : List Instruction → Nat → Running κ σ Unit)

/-- Executes all of a fragment, with the table of the code that is kept for it. -/
def runWhole : Executor κ σ := fun c call address instructions => do
  let code ← code address instructions
  runRange c stray call instructions (code.table 0) 0 instructions.length

/-- A run in which instructions are executed by positions. -/
def runByPositions (registry : Registry σ) (sink : Sink) (stored : Stored κ) (m : Machine κ)
    (world : σ) : Ending κ σ :=
  runWith (runWhole stray) registry sink stored m world

end Machine

end Stencil
