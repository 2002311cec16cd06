import Stencil.Machine.Lasting

/-!
# Sessions

A session has machines that share one set of hooks.  They are asked, one request after
the other, to run programs and to show their variables.  What the hooks remember lasts
from one request to the next, whichever machine it is for.
-/

namespace Stencil

structure Session (κ σ : Type) where
  registry : Registry σ
  machines : List (String × Machine κ)
  world : σ

inductive Request (κ : Type) where
  | run (machine : String) (sink : Sink) (stored : Stored κ)
  | dump (machine : String)

inductive Answer (κ σ : Type) where
  | ran (ending : Ending κ σ)
  | dumped (text : String)
  | noMachine

namespace Session

variable {κ σ : Type} [DecidableEq κ]

/-- Answers one request. -/
def step (s : Session κ σ) : Request κ → Answer κ σ × Session κ σ
  | .run name sink stored =>
      match s.machines.lookup name with
      | none => (.noMachine, s)
      | some m =>
          let ending := m.run s.registry sink stored s.world
          (.ran ending,
            { s with
              machines := Entries.set name ending.machine s.machines
              world := ending.host.world })
  | .dump name =>
      match s.machines.lookup name with
      | none => (.noMachine, s)
      | some m => (.dumped m.dump, s)

def answers (s : Session κ σ) : List (Request κ) → List (Answer κ σ)
  | [] => []
  | request :: requests => (s.step request).1 :: (s.step request).2.answers requests

/-- The session after requests. -/
def after (s : Session κ σ) (requests : List (Request κ)) : Session κ σ :=
  requests.foldl (fun s request => (s.step request).2) s

end Session

end Stencil
