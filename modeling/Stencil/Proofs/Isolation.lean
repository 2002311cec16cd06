import Stencil.Proofs.Caching
import Stencil.Proofs.Lockstep
import Stencil.Session

/-!
# Runs leave nothing to one another

Whatever a machine was asked before, it runs a program as a new machine would, with the
hooks as they have become.  Where no hook fails and what a filter makes of a text depends
on the text alone, it does not matter what the hooks remember either, or which machine
they are called for.  A filter that counts its calls shows that the text alone has to decide.
No run changes what a machine shows of its variables.
-/

namespace Stencil

variable {κ σ α β : Type}

/-! ## Results -/

/-- What is seen of a run from outside. -/
structure Result where
  chunks : List String
  error : Option RuntimeError
  frames : ScopeStack
  frameCount : Nat
  log : Array LogEntry
  deriving DecidableEq

def Outcome.result (outcome : Outcome σ) : Result :=
  ⟨outcome.state.host.written.toList, outcome.error, outcome.state.frames,
    outcome.state.frameCount, outcome.state.log⟩

def Ending.result (ending : Ending κ σ) : Result :=
  ⟨ending.host.written.toList, ending.error, ending.machine.frames,
    ending.machine.frameCount, ending.machine.log⟩

/-! ## Machines -/

namespace Machine

/-- The machines are called and render alike. -/
structure Alike (m m' : Machine κ) : Prop where
  name : m'.name = m.name
  environment : m'.environment = m.environment
  verbose : m'.verbose = m.verbose

theorem Alike.refl (m : Machine κ) : m.Alike m :=
  ⟨rfl, rfl, rfl⟩

theorem Alike.trans {m m' m'' : Machine κ} (h : m.Alike m') (h' : m'.Alike m'') : m.Alike m'' :=
  ⟨h'.name.trans h.name, h'.environment.trans h.environment, h'.verbose.trans h.verbose⟩

variable [DecidableEq κ] (registry : Registry σ) (sink : Sink)

theorem alike_run (stored : Stored κ) (m : Machine κ) (world : σ) :
    m.Alike (m.run registry sink stored world).machine := by
  rcases run_eq registry sink stored m world with ⟨matched, hrun⟩
  rw [hrun]
  exact ⟨rfl, rfl, rfl⟩

/-- Nothing of what the machine holds has a part in the result. -/
theorem result_run (stored : Stored κ) (m : Machine κ) (world : σ) :
    (m.run registry sink stored world).result =
      (stored.program.run ⟨m.name, m.environment, registry, sink, m.verbose⟩ world).result := by
  rcases run_eq registry sink stored m world with ⟨matched, hrun⟩
  rw [hrun]
  rfl

theorem result_run_alike {m m' : Machine κ} (h : m.Alike m') {stored stored' : Stored κ}
    (hprogram : stored'.program = stored.program) (world : σ) :
    (m'.run registry sink stored' world).result = (m.run registry sink stored world).result := by
  rw [result_run, result_run, hprogram, h.name, h.environment, h.verbose]

end Machine

/-! ## Sessions -/

namespace Session

variable [DecidableEq κ] {s : Session κ σ}

theorem registry_step (s : Session κ σ) (request : Request κ) :
    (s.step request).2.registry = s.registry := by
  cases request with
  | run name sink stored =>
      rw [step]
      cases s.machines.lookup name with
      | none => rfl
      | some m => rfl
  | dump name =>
      rw [step]
      cases s.machines.lookup name with
      | none => rfl
      | some m => rfl

/-- No request changes how a machine renders. -/
theorem alike_step {name : String} {m : Machine κ} (hm : s.machines.lookup name = some m)
    (request : Request κ) :
    ∃ m', (s.step request).2.machines.lookup name = some m' ∧ m.Alike m' := by
  cases request with
  | run asked sink stored =>
      rw [step]
      cases hasked : s.machines.lookup asked with
      | none => exact ⟨m, hm, .refl m⟩
      | some other =>
          by_cases hname : name = asked
          · subst hname
            rw [hm] at hasked
            cases hasked
            refine ⟨_, ?_, Machine.alike_run s.registry sink stored m s.world⟩
            exact (Entries.lookup_set _ _ _ _).trans (if_pos rfl)
          · exact ⟨m, (Entries.lookup_set _ _ _ _).trans ((if_neg hname).trans hm), .refl m⟩
  | dump asked =>
      rw [step]
      cases s.machines.lookup asked with
      | none => exact ⟨m, hm, .refl m⟩
      | some other => exact ⟨m, hm, .refl m⟩

theorem registry_after (s : Session κ σ) (requests : List (Request κ)) :
    (s.after requests).registry = s.registry := by
  induction requests generalizing s with
  | nil => rfl
  | cons request requests ih => exact (ih (s.step request).2).trans (registry_step s request)

theorem alike_after {name : String} {m : Machine κ} (hm : s.machines.lookup name = some m)
    (requests : List (Request κ)) :
    ∃ m', (s.after requests).machines.lookup name = some m' ∧ m.Alike m' := by
  induction requests generalizing s m with
  | nil => exact ⟨m, hm, .refl m⟩
  | cons request requests ih =>
      rcases alike_step hm request with ⟨between, hbetween, halike⟩
      rcases ih hbetween with ⟨m', hm', halike'⟩
      exact ⟨m', hm', halike.trans halike'⟩

/-- A request is answered by the session after those before it. -/
theorem answers_append (s : Session κ σ) (earlier later : List (Request κ))
    (request : Request κ) :
    (s.answers (earlier ++ request :: later))[earlier.length]? =
      some ((s.after earlier).step request).1 := by
  induction earlier generalizing s with
  | nil => rfl
  | cons first earlier ih => exact ih (s.step first).2

end Session

/-! ## Hooks that go by what they are given -/

/-- Whatever the machine and the world, the answer to `a` is `f a`. -/
def Hook.Answers (f : α → β) (hook : Hook σ α β) : Prop :=
  ∀ machine a world, ∃ world', hook.handler machine a world = .ok (f a) world'

/-- No hook fails, and what a filter makes of a text depends on the text alone. -/
structure Registry.Steady (r : Registry σ) : Prop where
  listeners : ∀ kind, ∀ hook ∈ r.listeners kind, hook.Answers fun _ => ()
  stepRules : ∀ rule ∈ r.stepRules, rule.hook.Answers fun _ => ()
  filters : ∀ hook ∈ r.filters, ∃ f, hook.Answers f

namespace Hook

theorem not_throws_of_answers {f : α → β} {hook : Hook σ α β} (h : hook.Answers f)
    (machine : String) (a : α) (e : HookError) : ¬hook.Throws machine a e := by
  rintro ⟨world, world', hthrows⟩
  rcases h machine a world with ⟨after, hanswers⟩
  rw [hanswers] at hthrows
  cases hthrows

theorem call_of_answers {f : α → β} {hook : Hook σ α β} (h : hook.Answers f)
    (machine : String) (record : Origin → Record) (a : α) (host : Host σ) :
    ∃ after, hook.call machine record a host = .ok (f a) after ∧
      after.written = host.written := by
  rcases h machine a (host.note (record hook.origin)).world with ⟨world, hanswers⟩
  rw [call]
  simp only [hanswers]
  exact ⟨_, rfl, rfl⟩

end Hook

namespace Registry

variable {r : Registry σ}

theorem Steady.emit (h : r.Steady) (machine : String) (event : Event) (host : Host σ) :
    ∃ after, r.emit machine event host = .ok () after ∧ after.written = host.written := by
  have hextends := r.extends_emit machine event host
  cases hemit : r.emit machine event host with
  | ok a after =>
      rw [hemit] at hextends
      exact ⟨after, rfl, hextends.written⟩
  | error e after =>
      rcases throws_of_emit hemit with ⟨hook, hmem, given, hthrows⟩
      exact absurd hthrows (Hook.not_throws_of_answers (h.listeners _ hook hmem) machine given e)

theorem Steady.afterStep (h : r.Steady) (machine : String) (context : StepContext)
    (host : Host σ) :
    ∃ after, r.afterStep machine context host = .ok () after ∧
      after.written = host.written := by
  have hextends := r.extends_afterStep machine context host
  cases hstep : r.afterStep machine context host with
  | ok a after =>
      rw [hstep] at hextends
      exact ⟨after, rfl, hextends.written⟩
  | error e after =>
      rcases throws_of_afterStep hstep with ⟨rule, hmem, given, hthrows⟩
      exact absurd hthrows (Hook.not_throws_of_answers (h.stepRules rule hmem) machine given e)

end Registry

/-! ## The same chunks -/

/-- The hosts hold the same chunks. -/
def writing : Link σ σ where
  hosts host host' := host'.written = host.written
  chunks := Eq
  cut _ _ _ := False

theorem follows_filterWith_steady {hooks : List (Hook σ String Filtered)}
    (h : ∀ hook ∈ hooks, ∃ f, hook.Answers f) (machine machine' text : String)
    {host host' : Host σ} (hhosts : writing.hosts host host') :
    writing.Follows .outputFilter Eq (Registry.filterWith machine hooks text host)
      (Registry.filterWith machine' hooks text host') := by
  induction hooks generalizing text host host' with
  | nil => exact .ok rfl hhosts
  | cons hook hooks ih =>
      rcases List.forall_mem_cons.mp h with ⟨⟨f, hanswers⟩, hrest⟩
      rcases Hook.call_of_answers hanswers machine (.filter · text) text host with
        ⟨after, hcall, hwritten⟩
      rcases Hook.call_of_answers hanswers machine' (.filter · text) text host' with
        ⟨after', hcall', hwritten'⟩
      have hafter : writing.hosts after after' := by
        change after'.written = after.written
        rw [hwritten', hwritten]
        exact hhosts
      rw [Registry.filterWith, Registry.filterWith]
      change writing.Follows _ _ (EStateM.bind _ _ host) (EStateM.bind _ _ host')
      rw [EStateM.bind, EStateM.bind, hcall, hcall']
      cases f text with
      | text filtered => exact ih hrest filtered hafter
      | foreign typeName => exact .error _ hafter

theorem lockstep_writing {p : Program} {c : Setting σ} (h : c.registry.Steady) (owner : String)
    (world : σ) : Lockstep p c { c with machine := owner } world writing where
  environment := rfl
  note := fun _ _ _ hhosts => hhosts
  persistent := fun hcut _ => hcut
  emit := by
    intro event host host' hhosts
    rcases h.emit c.machine event host with ⟨after, hemit, hwritten⟩
    rcases h.emit owner event host' with ⟨after', hemit', hwritten'⟩
    rw [hemit, hemit']
    exact .ok rfl (hwritten'.trans (Eq.trans hhosts hwritten.symm))
  afterStep := by
    intro context host host' hhosts
    rcases h.afterStep c.machine context host with ⟨after, hstep, hwritten⟩
    rcases h.afterStep owner context host' with ⟨after', hstep', hwritten'⟩
    rw [hstep, hstep']
    exact .ok rfl (hwritten'.trans (Eq.trans hhosts hwritten.symm))
  filter := by
    intro text rest host t _ hhosts
    exact follows_filterWith_steady h.filters c.machine owner text hhosts
  deliver := by
    rintro text _ host host' rfl hhosts
    have hsame : host'.written = host.written := hhosts
    cases htaken : c.sink host.written text with
    | none =>
        refine .taken htaken (by rw [hsame]; exact htaken) ?_
        change host'.written.push text = host.written.push text
        rw [hsame]
    | some reason => exact .refused htaken (by rw [hsame]; exact htaken)

/-- With steady hooks the result of a run does not depend on what they remember. -/
theorem Program.result_run_steady {p : Program} {c : Setting σ} (h : c.registry.Steady)
    (owner : String) (world world' : σ) :
    (p.run { c with machine := owner } world').result = (p.run c world).result := by
  have L : Lockstep p c { c with machine := owner } world' writing :=
    lockstep_writing h owner world'
  have hstart : writing.hosts (Host.initial world) (Host.initial world') := rfl
  have huncut : (writing : Link σ σ).uncut = writing := rfl
  have hreport : ∀ x s t, p.Raises { c with machine := owner } world' x t →
      State.Matches c { c with machine := owner } writing s t →
      (writing : Link σ σ).uncut.Follows (.event .onError) (· = ·)
        (c.registry.emit c.machine (.onError ((x.error s.lastSpan).stamp s.lastIndex)) s.host)
        (c.registry.emit owner (.onError ((x.error s.lastSpan).stamp s.lastIndex)) t.host) := by
    intro x s t _ hmatch
    rw [huncut]
    exact L.emit (.onError _) hmatch.host
  rcases L.outcomes hstart hreport with ⟨herror, hmatch⟩ | ⟨x, t, _, hcut⟩
  · have hwritten : (p.run { c with machine := owner } world').state.host.written =
        (p.run c world).state.host.written := hmatch.host
    rw [Outcome.result, Outcome.result, herror, hmatch.frames, hmatch.frameCount,
      hmatch.log rfl, hwritten]
  · exact hcut.host.elim

/-! ## Isolation -/

/-- Whatever requests came earlier, and whatever they have left in the machine, a run ends
as in a new machine with the same environment, wherever in memory that has the program.
What a machine shows of its variables is always the same. -/
theorem Session.runs_isolated [DecidableEq κ] (s : Session κ σ)
    (earlier later : List (Request κ)) (name : String) (m : Machine κ)
    (hm : s.machines.lookup name = some m) :
    (∀ sink stored, ∃ ending : Ending κ σ,
      (s.answers (earlier ++ .run name sink stored :: later))[earlier.length]? =
        some (.ran ending) ∧
      (∀ stored' : Stored κ, stored'.program = stored.program →
        ((Machine.new m.name m.environment m.verbose).run s.registry sink stored'
          (s.after earlier).world).result = ending.result) ∧
      (s.registry.Steady → ∀ (stored' : Stored κ) (owner : String) (world : σ),
        stored'.program = stored.program →
        ((Machine.new owner m.environment m.verbose).run s.registry sink stored'
          world).result = ending.result)) ∧
    (s.answers (earlier ++ .dump name :: later))[earlier.length]? = some (.dumped m.dump) := by
  rcases Session.alike_after hm earlier with ⟨m', hm', halike⟩
  constructor
  · intro sink stored
    refine ⟨m'.run s.registry sink stored (s.after earlier).world, ?_, ?_, ?_⟩
    · rw [Session.answers_append, Session.step, hm', Session.registry_after]
    · intro stored' hprogram
      exact Machine.result_run_alike s.registry sink
        ⟨halike.name.symm, halike.environment.symm, halike.verbose.symm⟩ hprogram _
    · intro hsteady stored' owner world hprogram
      rw [Machine.result_run, Machine.result_run, hprogram, halike.environment, halike.verbose]
      exact Program.result_run_steady
        (c := ⟨m'.name, m.environment, s.registry, sink, m.verbose⟩) hsteady owner _ world
  · rw [Session.answers_append, Session.step, hm']
    exact congrArg (fun e => some (Answer.dumped (Environment.dump e))) halike.environment

/-- A machine is used again after a run that failed with a frame and a capture open, and
whose instructions had the same address. -/
theorem Session.run_after_failure :
    let around : Hook Nat String Filtered :=
      ⟨0, ⟨"brackets", none⟩, fun _ text world =>
        .ok (.text ("[" ++ text ++ "]")) (world + 1)⟩
    let m : Machine Place := Machine.new "m" ⟨[], [("a", ["1", "2"])]⟩ true
    let s : Session Place Nat := ⟨⟨fun _ => [], [], [around]⟩, [("m", m)], 0⟩
    let broken : Program :=
      ⟨[.of .pushScope none, .of .beginCapture none, .of (.emitVar "u") none], ⟨[]⟩⟩
    let good : Program :=
      ⟨[⟨.beginArrayIter "a", none⟩, .of (.emitVar Binding.item) none, ⟨.endArrayIter, none⟩],
        ⟨[]⟩⟩
    let earlier := [Request.run "m" Sink.accepting (Stored.apart broken)]
    s.machines.lookup "m" = some m ∧ s.registry.Steady ∧
      ((s.after earlier).machines.map fun (_, m) =>
        (m.frames.length, m.captures.length, m.matched.length)) = [(1, 1, 1)] ∧
      ∃ ending : Ending Place Nat,
        (s.answers (earlier ++ [.run "m" Sink.accepting (Stored.apart good)]))[1]? =
          some (.ran ending) ∧
        ending.result.chunks = ["[1]", "[2]"] ∧ ending.result.error = none ∧
        ending.result.frameCount = 2 := by
  intro around m s broken good earlier
  have hsteady : s.registry.Steady := by
    refine ⟨by simp [s], by simp [s], ?_⟩
    intro hook hmem
    rw [List.mem_singleton.mp hmem]
    exact ⟨fun text => .text ("[" ++ text ++ "]"), fun _ _ world => ⟨world + 1, rfl⟩⟩
  refine ⟨rfl, hsteady, by decide +kernel, ?_⟩
  rcases (Session.runs_isolated s earlier [] "m" m rfl).1 Sink.accepting (Stored.apart good) with
    ⟨ending, hanswer, _, hfresh⟩
  refine ⟨ending, hanswer, ?_⟩
  rw [← hfresh hsteady (Stored.apart good) "m" 0 rfl]
  decide +kernel

/-- A filter that counts its calls, and never fails, tells a second run from a first. -/
theorem Session.run_counted :
    let counting : Hook Nat String Filtered :=
      ⟨0, ⟨"count", none⟩, fun _ text calls =>
        .ok (.text (text ++ toString calls)) (calls + 1)⟩
    let m : Machine Place := Machine.new "m" .empty false
    let s : Session Place Nat := ⟨⟨fun _ => [], [], [counting]⟩, [("m", m)], 0⟩
    let stored : Stored Place := Stored.apart ⟨[.of (.emitLiteral "x") none], ⟨[]⟩⟩
    let request := Request.run "m" Sink.accepting stored
    (∀ machine text e, ¬counting.Throws machine text e) ∧
      ∃ ending : Ending Place Nat,
        (s.answers [request, request])[1]? = some (.ran ending) ∧
        ending.result.chunks = ["x1"] ∧
        (m.run s.registry Sink.accepting stored s.world).result.chunks = ["x0"] ∧
        (m.run s.registry Sink.accepting stored s.world).result ≠ ending.result := by
  intro counting m s stored request
  have hnever : ∀ machine text e, ¬counting.Throws machine text e := by
    rintro machine text e ⟨world, world', hthrows⟩
    cases hthrows
  refine ⟨hnever, _, rfl, ?_⟩
  decide +kernel

end Stencil
