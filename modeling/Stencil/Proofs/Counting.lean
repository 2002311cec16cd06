import Stencil.Proofs.Isolation
import Stencil.Proofs.Ledger

/-!
# The statistics extension counts what happened

After each run of a machine its figures are those of that run.  They stay so whatever other
machines run with the same hooks, until the machine itself runs again.
-/

namespace Stencil

variable {κ : Type}

/-- The request is to run a program in the machine of that name. -/
def Request.Runs (name : String) : Request κ → Prop
  | run machine _ _ => machine = name
  | dump _ => False

namespace Session

variable [DecidableEq κ] {s : Session κ World} {owner name : String}

/-- Every machine is known by its own name. -/
def Named (s : Session κ World) : Prop :=
  ∀ name m, s.machines.lookup name = some m → m.name = name

theorem Named.step (h : s.Named) (request : Request κ) : (s.step request).2.Named := by
  cases request with
  | dump asked =>
      rw [Session.step]
      cases s.machines.lookup asked with
      | none => exact h
      | some m => exact h
  | run asked sink stored =>
      rw [Session.step]
      cases hasked : s.machines.lookup asked with
      | none => exact h
      | some m =>
          intro other found hfound
          rw [Entries.lookup_set] at hfound
          by_cases heq : other = asked
          · rw [if_pos heq] at hfound
            cases hfound
            exact ((Machine.alike_run s.registry sink stored m s.world).name.trans
              (h asked m hasked)).trans heq.symm
          · rw [if_neg heq] at hfound
            exact h other found hfound

theorem statsOf_step (hamong : Statistics.Among owner s.registry) (hnamed : s.Named)
    {request : Request κ} (h : ¬request.Runs name) :
    (s.step request).2.world.statsOf name = s.world.statsOf name := by
  cases request with
  | dump asked =>
      rw [step]
      cases s.machines.lookup asked with
      | none => rfl
      | some m => rfl
  | run asked sink stored =>
      rw [step]
      cases hasked : s.machines.lookup asked with
      | none => rfl
      | some m =>
          have hother : name ≠ m.name :=
            fun heq => h ((hnamed asked m hasked).symm.trans heq.symm)
          rcases Machine.run_eq s.registry sink stored m s.world with ⟨matched, hrun⟩
          change (m.run s.registry sink stored s.world).host.world.statsOf name = _
          rw [hrun]
          exact Program.preserved_run
            (c := ⟨m.name, m.environment, s.registry, sink, m.verbose⟩)
            (hamong.preserves_others hother) stored.program s.world

/-- Requests to other machines leave the figures alone. -/
theorem statsOf_after (hamong : Statistics.Among owner s.registry) (hnamed : s.Named)
    {requests : List (Request κ)} (h : ∀ request ∈ requests, ¬request.Runs name) :
    (s.after requests).world.statsOf name = s.world.statsOf name := by
  induction requests generalizing s with
  | nil => rfl
  | cons request requests ih =>
      rcases List.forall_mem_cons.mp h with ⟨hfirst, hrest⟩
      have hregistry : Statistics.Among owner (s.step request).2.registry := by
        rw [registry_step]
        exact hamong
      exact (ih hregistry (hnamed.step request) hrest).trans
        (statsOf_step hamong hnamed hfirst)

theorem named_after (h : s.Named) (requests : List (Request κ)) : (s.after requests).Named := by
  induction requests generalizing s with
  | nil => exact h
  | cons request requests ih => exact ih (h.step request)

theorem after_append (s : Session κ World) (earlier later : List (Request κ))
    (request : Request κ) :
    s.after (earlier ++ request :: later) = ((s.after earlier).step request).2.after later := by
  rw [after, List.foldl_append]
  rfl

theorem step_run {m : Machine κ} (hm : s.machines.lookup name = some m) (sink : Sink)
    (stored : Stored κ) :
    s.step (.run name sink stored) =
      (.ran (m.run s.registry sink stored s.world),
        { s with
          machines := Entries.set name (m.run s.registry sink stored s.world).machine s.machines
          world := (m.run s.registry sink stored s.world).host.world }) := by
  rw [step, hm]

/-- The statistics extension is registered once, among others that leave its figures alone,
and no other filter stands behind its own.  Then after a run that is not cut short by a
listener for the start, a step rule or the sink, whatever requests came before and whatever
other machines are asked for later, the figures of the machine describe that run. -/
theorem stats_describe_runs {before after : List (Registration World)}
    {services : Services World}
    (hservices : Services.empty.registerAll (before ++ Statistics.registrations owner ++ after) =
      (services, none))
    (hdiscreet : ∀ registration ∈ before ++ after, registration.Discreet)
    (hbefore : ∀ hook, .filter hook ∈ before → -100 ≤ hook.priority)
    (hafter : ∀ hook, .filter hook ∈ after → -100 < hook.priority)
    (s : Session κ World) (hregistry : s.registry = services.registry) (hnamed : s.Named)
    {m : Machine κ} (hm : s.machines.lookup name = some m) (earlier later : List (Request κ))
    (sink : Sink) (stored : Stored κ) (hlater : ∀ request ∈ later, ¬request.Runs name)
    (hcounts : ∀ x state, stored.program.Raises
      ⟨name, m.environment, s.registry, sink, m.verbose⟩ (s.after earlier).world x state →
        ¬x.Miscounts) :
    ∃ ending : Ending κ World,
      (s.answers (earlier ++ .run name sink stored :: later))[earlier.length]? =
        some (.ran ending) ∧
      ((s.after (earlier ++ .run name sink stored :: later)).world.statsOf name).Describes
        ending.error ending.machine.log ending.host := by
  have hamong : Statistics.Among owner s.registry := by
    rw [hregistry]
    exact Statistics.among_of_registerAll hservices hdiscreet hbefore hafter
  rcases alike_after hm earlier with ⟨m', hm', halike⟩
  have hname : m'.name = name := halike.name.trans (hnamed name m hm)
  rw [answers_append, after_append, step_run hm' sink stored, registry_after]
  refine ⟨m'.run s.registry sink stored (s.after earlier).world, rfl, ?_⟩
  have hregistry' : Statistics.Among owner
      ((s.after earlier).step (.run name sink stored)).2.registry := by
    rw [registry_step, registry_after]
    exact hamong
  have hlast := statsOf_after hregistry' ((named_after hnamed earlier).step _) hlater
  rw [step_run hm' sink stored, registry_after] at hlast
  rw [hlast]
  rcases Machine.run_eq s.registry sink stored m' (s.after earlier).world with ⟨matched, hrun⟩
  rw [hname, halike.environment, halike.verbose] at hrun
  simp only [hrun]
  exact Program.describes_run hamong hcounts

/-- Two machines with the same hooks, of which two filters change the text and a listener
counts its calls.  The second machine runs before and after the first, and fails. -/
theorem stats_describe_runs_two_machines :
    let before := HookDescription.allRegistrations "marks" 0
      [.filter (.append "!") (-100) "mark" none, .on "macro_call" 0 "calls" none]
    let after := HookDescription.allRegistrations "quotes" 1
      [.filter (.prepend ">") 0 "quote" none]
    let services := (Services.empty.registerAll
      (before ++ Statistics.registrations "stats" ++ after)).1
    let m : Machine Place := Machine.new "m" ⟨[], [("a", ["1", "23"])]⟩ false
    let s : Session Place World :=
      ⟨services.registry, [("m", m), ("n", Machine.new "n" Environment.empty false)], {}⟩
    let good : Program :=
      ⟨[⟨.beginArrayIter "a", none⟩, .of (.beginMacroCall "k" 0) none, .of .endMacroCall none,
          ⟨.endArrayIter, none⟩],
        ⟨[⟨"k", 0, none, [.of (.emitVar Binding.item) none],
          [.of (.emitVar Binding.pattern) none]⟩]⟩⟩
    let bad : Program := ⟨[.of (.emitLiteral "x") none, .of (.emitVar "u") none], ⟨[]⟩⟩
    let other := Request.run "n" Sink.accepting (Stored.apart bad)
    s.Named ∧ s.machines.lookup "m" = some m ∧ ∃ ending : Ending Place World,
      (s.answers [other, .run "m" Sink.accepting (Stored.apart good), other])[1]? =
        some (.ran ending) ∧
      ((s.after [other, .run "m" Sink.accepting (Stored.apart good), other]).world.statsOf
        "m").Describes ending.error ending.machine.log ending.host ∧
      (s.after [other, .run "m" Sink.accepting (Stored.apart good), other]).world.statsOf "m" =
        ⟨[("BEGIN_ARRAY_ITER", 1), ("BEGIN_MACRO_CALL", 2), ("EMIT_VAR", 4),
          ("END_MACRO_CALL", 2), ("END_ARRAY_ITER", 1)], 7, 2, 2⟩ := by
  intro before after services m s good bad other
  have hnamed : s.Named := by
    intro name found hfound
    simp only [s, Entries.lookup_cons] at hfound
    split at hfound
    · rename_i hname
      cases hfound
      exact hname.symm
    · split at hfound
      · rename_i hname
        cases hfound
        exact hname.symm
      · cases hfound
  have hdiscreet : ∀ registration ∈ before ++ after, registration.Discreet :=
    List.forall_mem_append.mpr
      ⟨HookDescription.discreet_allRegistrations "marks" 0 (by simp),
        HookDescription.discreet_allRegistrations "quotes" 1 (by simp)⟩
  have hbefore : ∀ hook, .filter hook ∈ before → -100 ≤ hook.priority := by
    intro hook hmem
    obtain rfl : hook = _ := by
      simpa [before, HookDescription.allRegistrations, HookDescription.registrations] using hmem
    decide
  have hafter : ∀ hook, .filter hook ∈ after → -100 < hook.priority := by
    intro hook hmem
    obtain rfl : hook = _ := by
      simpa [after, HookDescription.allRegistrations, HookDescription.registrations] using hmem
    decide
  have hruns : (good.run ⟨"m", m.environment, s.registry, Sink.accepting, m.verbose⟩
      (s.after [other]).world).error = none := by
    decide +kernel
  rcases stats_describe_runs rfl hdiscreet hbefore hafter s rfl hnamed rfl [other] [other]
    Sink.accepting (Stored.apart good) (by simp [other, Request.Runs])
    (fun x state hraises _ => Program.error_of_raises hraises hruns) with
    ⟨ending, hanswer, hdescribes⟩
  exact ⟨hnamed, rfl, ending, hanswer, hdescribes, by decide +kernel⟩

end Session

end Stencil
