import Stencil.Hook.Event

/-!
# The registry of hooks

Listeners and output filters are called by descending priority, and in the order
of their registration where priorities are equal.  Step rules are called in the
order of their registration.
-/

namespace Stencil

structure StepRule (σ : Type) where
  /-- The rule applies to the steps whose index is a multiple of this. -/
  every : Nat
  hook : Hook σ StepContext Unit

structure Registry (σ : Type) where
  listeners : EventKind → List (Hook σ Event Unit)
  stepRules : List (StepRule σ)
  filters : List (Hook σ String Filtered)

structure Metadata where
  name : String
  version : String := "0.0.0"
  requiresApi : Int := 1
  deriving DecidableEq

/-- The hooks of a set of extensions, and what these say about themselves. -/
structure Services (σ : Type) where
  metadata : List Metadata
  registry : Registry σ

/-- One request of an extension. -/
inductive Registration (σ : Type) where
  | metadata (metadata : Metadata)
  | listener (event : String) (hook : Hook σ Event Unit)
  | stepRule (every : Int) (hook : Hook σ StepContext Unit)
  | filter (hook : Hook σ String Filtered)

/-- Why a registration is refused. -/
inductive Refusal where
  | unknownEvent (name : String)
  | badPeriod (every : Int)
  deriving DecidableEq

namespace Refusal

def message : Refusal → String
  | unknownEvent name =>
      "Unknown event '" ++ name ++ "' (expected one of: " ++
        String.intercalate ", " (EventKind.all.map EventKind.name) ++ ")"
  | badPeriod every => "every_n_steps must be >= 1, got " ++ toString every

end Refusal

namespace Hook

variable {σ α β : Type}

/-- Puts a hook before the first one of lower priority. -/
def insert (hook : Hook σ α β) : List (Hook σ α β) → List (Hook σ α β)
  | [] => [hook]
  | h :: hs => if h.priority < hook.priority then hook :: h :: hs else h :: insert hook hs

/-- Higher priorities stand before lower ones. -/
def Ordered (hooks : List (Hook σ α β)) : Prop :=
  hooks.Pairwise fun first second => second.priority ≤ first.priority

theorem insert_perm (hook : Hook σ α β) (hooks : List (Hook σ α β)) :
    (hook.insert hooks).Perm (hook :: hooks) := by
  induction hooks with
  | nil => exact List.Perm.refl _
  | cons h hs ih =>
      simp only [insert]
      split
      · exact List.Perm.refl _
      · exact (ih.cons h).trans (List.Perm.swap hook h hs)

theorem ordered_insert (hook : Hook σ α β) {hooks : List (Hook σ α β)}
    (hordered : Ordered hooks) : Ordered (hook.insert hooks) := by
  induction hooks with
  | nil => exact List.pairwise_singleton _ _
  | cons h hs ih =>
      rcases List.pairwise_cons.1 hordered with ⟨hhead, htail⟩
      simp only [insert]
      split
      · rename_i hlt
        apply List.pairwise_cons.2
        constructor
        · intro k hk
          rcases List.mem_cons.1 hk with rfl | hk
          · exact Int.le_of_lt hlt
          · exact Int.le_trans (hhead k hk) (Int.le_of_lt hlt)
        · exact hordered
      · rename_i hge
        apply List.pairwise_cons.2
        constructor
        · intro k hk
          rcases List.mem_cons.1 ((insert_perm hook hs).mem_iff.1 hk) with rfl | hk
          · exact Int.not_lt.1 hge
          · exact hhead k hk
        · exact ih htail

end Hook

namespace Registry

variable {σ : Type}

def empty : Registry σ :=
  ⟨fun _ => [], [], []⟩

def addListener (r : Registry σ) (kind : EventKind) (hook : Hook σ Event Unit) :
    Registry σ :=
  { r with
    listeners := fun k => if k = kind then hook.insert (r.listeners k) else r.listeners k }

def addStepRule (r : Registry σ) (rule : StepRule σ) : Registry σ :=
  { r with stepRules := r.stepRules ++ [rule] }

def addFilter (r : Registry σ) (hook : Hook σ String Filtered) : Registry σ :=
  { r with filters := hook.insert r.filters }

def listensTo (r : Registry σ) (kind : EventKind) : Bool :=
  !(r.listeners kind).isEmpty

/-- Calls the listeners of an event, up to the first that fails. -/
def emit (r : Registry σ) (machine : String) (event : Event) : HostM σ Unit :=
  (r.listeners event.kind).forM fun hook => hook.call machine (.event · event) event

/-- Calls the step rules that are due. -/
def afterStep (r : Registry σ) (machine : String) (context : StepContext) :
    HostM σ Unit :=
  r.stepRules.forM fun rule =>
    if context.index % rule.every = 0 then
      rule.hook.call machine (.step · context) context
    else pure ()

/-- Hands a text from filter to filter. -/
def filterWith (machine : String) :
    List (Hook σ String Filtered) → String → HostM σ String
  | [], text => pure text
  | hook :: hooks, text => do
      match ← hook.call machine (.filter · text) text with
      | .text text => filterWith machine hooks text
      | .foreign typeName =>
          throw (.extension ("output filter from '" ++ hook.origin.owner ++ "' returned " ++
            typeName ++ ", expected str"))

def filterOutput (r : Registry σ) (machine text : String) : HostM σ String :=
  filterWith machine r.filters text

end Registry

namespace Services

variable {σ : Type}

def empty : Services σ :=
  ⟨[], Registry.empty⟩

def register (s : Services σ) : Registration σ → Except Refusal (Services σ)
  | .metadata m => .ok { s with metadata := s.metadata ++ [m] }
  | .listener name hook =>
      match EventKind.ofName? name with
      | some kind => .ok { s with registry := s.registry.addListener kind hook }
      | none => .error (.unknownEvent name)
  | .stepRule every hook =>
      if every < 1 then .error (.badPeriod every)
      else .ok { s with registry := s.registry.addStepRule ⟨every.toNat, hook⟩ }
  | .filter hook => .ok { s with registry := s.registry.addFilter hook }

/-- Makes registrations in order, up to the first that is refused; those before
it stay. -/
def registerAll (s : Services σ) : List (Registration σ) → Services σ × Option Refusal
  | [] => (s, none)
  | r :: rs =>
      match s.register r with
      | .ok s => s.registerAll rs
      | .error refusal => (s, some refusal)

end Services

end Stencil
