import Stencil.Extension.World

/-!
# The statistics extension

Counts the instructions of a run by opcode, its macro calls, the items of its
iterations and the characters that reach the output, and prints a summary when
the run has ended.  Its output filter has a low priority, so that it counts what
the other filters hand on.
-/

namespace Stencil

namespace RunStats

def countStep (opcode : String) (stats : RunStats) : RunStats :=
  let count := (stats.opcodes.lookup opcode).getD 0
  { stats with opcodes := Entries.set opcode (count + 1) stats.opcodes }

def steps (stats : RunStats) : Nat :=
  stats.opcodes.foldr (fun (_, count) total => count + total) 0

/-- One line, with the opcodes in alphabetical order. -/
def summary (stats : RunStats) : String :=
  let counts := (Entries.byName stats.opcodes).map fun (opcode, count) =>
    opcode ++ "=" ++ toString count
  "[stats] " ++ toString stats.steps ++ " steps, " ++ toString stats.chars ++
    " chars emitted, " ++ toString stats.macroCalls ++ " macro calls, " ++
    toString stats.items ++ " items (" ++ String.intercalate ", " counts ++ ")"

end RunStats

namespace Statistics

def update (machine : String) (change : RunStats → RunStats) : EStateM HookError World Unit :=
  modify fun w => w.setStats machine (change (w.statsOf machine))

def onEvent (machine : String) : Event → EStateM HookError World Unit
  | .programStart _ => update machine fun _ => {}
  | .macroCall _ => update machine fun s => { s with macroCalls := s.macroCalls + 1 }
  | .arrayIter iteration =>
      update machine fun s => { s with items := s.items + iteration.items.length }
  | .programEnd => modify fun w => w.print ((w.statsOf machine).summary ++ "\n")
  | .onError _ => pure ()

def onStep (machine : String) (context : StepContext) : EStateM HookError World Unit :=
  update machine (RunStats.countStep context.opcode)

def onOutput (machine text : String) : EStateM HookError World Filtered := do
  update machine fun s => { s with chars := s.chars + text.length }
  return .text text

/-- Its registrations for an owner, in order. -/
def registrations (owner : String) : List (Registration World) :=
  let origin : Origin := { owner := owner }
  let listener (kind : EventKind) : Registration World :=
    .listener kind.name { origin := origin, handler := onEvent }
  [.metadata { name := "stats", version := "1.1.0" },
    listener .programStart, listener .macroCall, listener .arrayIter,
    .stepRule 1 { origin := origin, handler := onStep },
    .filter { priority := -100, origin := origin, handler := onOutput },
    listener .programEnd]

end Statistics

end Stencil
