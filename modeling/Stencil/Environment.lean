import Stencil.Entries
import Stencil.Text.Json

/-!
# Environments

The global variables and arrays that a template is rendered with.  A variable has
one text, an array a list of them.
-/

namespace Stencil

structure Environment where
  scalars : List (String × String)
  arrays : List (String × List String)
  deriving DecidableEq

namespace Environment

def empty : Environment := ⟨[], []⟩

def findVariable (env : Environment) (name : String) : Option String :=
  env.scalars.lookup name

def findArray (env : Environment) (name : String) : Option (List String) :=
  env.arrays.lookup name

def dumpLines (env : Environment) : List String :=
  ("variables (" ++ toString env.scalars.length ++ "):") ::
    (Entries.byName env.scalars).map (fun (name, value) => "  " ++ name ++ " = " ++ Json.quote value) ++
    ("arrays (" ++ toString env.arrays.length ++ "):") ::
    (Entries.byName env.arrays).map fun (name, items) => "  " ++ name ++ " = " ++ Json.quoteList items

/-- Every variable and array on a line of its own, in the order of names. -/
def dump (env : Environment) : String :=
  String.join (env.dumpLines.map (· ++ "\n"))

end Environment

end Stencil
