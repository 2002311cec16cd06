import Stencil.Extension.Statistics

/-!
# Described hooks

An extension can be described as data: a list of hooks, each of which does
nothing but be called, and perhaps fail from some call on.
-/

namespace Stencil

/-- A failure on call number `at`, counted from zero, and on every later one. -/
structure PlannedFailure where
  error : HookError
  first : Nat := 0

/-- What a described filter makes of a text. -/
inductive FilterMode where
  | keep
  | append (suffix : String)
  | prepend (head : String)
  | reverse
  | drop
  | foreign (typeName : String)

inductive HookDescription where
  | metadata (metadata : Metadata)
  | statistics
  | on (event : String) (priority : Int) (tag : String) (failure : Option PlannedFailure)
  | every (every : Int) (tag : String) (failure : Option PlannedFailure)
  | filter (mode : FilterMode) (priority : Int) (tag : String)
      (failure : Option PlannedFailure)

namespace FilterMode

def apply (text : String) : FilterMode → Filtered
  | keep => .text text
  | append suffix => .text (text ++ suffix)
  | prepend head => .text (head ++ text)
  | reverse => .text (String.ofList text.toList.reverse)
  | drop => .text ""
  | foreign typeName => .foreign typeName

end FilterMode

namespace HookDescription

/-- Counts a call, and fails if that is planned. -/
def attempt (id : HookId) (failure : Option PlannedFailure) :
    EStateM HookError World Unit := do
  let made := (← get).callsOf id
  modify (World.countCall id)
  match failure with
  | some f => if f.first ≤ made then throw f.error
  | none => pure ()

def registrations (owner : String) (id : HookId) :
    HookDescription → List (Registration World)
  | metadata m => [.metadata m]
  | statistics => Statistics.registrations owner
  | on event priority tag failure =>
      [.listener event ⟨priority, ⟨owner, some tag⟩, fun _ _ => attempt id failure⟩]
  | every n tag failure =>
      [.stepRule n ⟨0, ⟨owner, some tag⟩, fun _ _ => attempt id failure⟩]
  | filter mode priority tag failure =>
      [.filter ⟨priority, ⟨owner, some tag⟩, fun _ text => do
        attempt id failure
        return mode.apply text⟩]

/-- The registrations of a list of hooks; hooks are told apart by their places. -/
def allRegistrations (owner : String) (installation : Nat)
    (hooks : List HookDescription) : List (Registration World) :=
  hooks.zipIdx.flatMap fun (hook, place) => hook.registrations owner ⟨installation, place⟩

end HookDescription

end Stencil
