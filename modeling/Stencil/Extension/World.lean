import Stencil.Entries
import Stencil.Hook.Registry

/-!
# What described extensions remember

The hooks of described extensions count their own calls, and those of the
statistics extension keep figures for each machine.  Text that they print is
collected.
-/

namespace Stencil

/-- Which installation of an extension a hook belongs to, and its place there. -/
structure HookId where
  installation : Nat
  place : Nat
  deriving DecidableEq

/-- The figures of one run. -/
structure RunStats where
  /-- How often each opcode was executed, in the order of first execution. -/
  opcodes : List (String × Nat) := []
  chars : Nat := 0
  macroCalls : Nat := 0
  items : Nat := 0
  deriving DecidableEq

structure World where
  calls : List (HookId × Nat) := []
  stats : List (String × RunStats) := []
  printed : String := ""

namespace World

def callsOf (w : World) (hook : HookId) : Nat :=
  (w.calls.lookup hook).getD 0

def countCall (hook : HookId) (w : World) : World :=
  { w with calls := Entries.set hook (w.callsOf hook + 1) w.calls }

/-- A machine of which nothing is known has figures that are all zero. -/
def statsOf (w : World) (machine : String) : RunStats :=
  (w.stats.lookup machine).getD {}

def setStats (machine : String) (stats : RunStats) (w : World) : World :=
  { w with stats := Entries.set machine stats w.stats }

def print (text : String) (w : World) : World :=
  { w with printed := w.printed ++ text }

end World

end Stencil
