import Stencil.Compile
import Stencil.Proofs.Sabotage

/-!
# Failures keep what was done

A run that a handler, or the sink, makes fail leaves a beginning of what it would have
done otherwise: the same chunks, the same log and the same calls of hooks up to that
failure, and nothing after it but reports of the error.  The text in a capture is not
written.
-/

namespace Stencil

variable {σ τ : Type} {p : Program} {c : Setting σ} {world : σ} {limit : Nat}

/-! ## Beginnings of runs -/

/-- A listener for errors is called. -/
def Record.reports : Record → Bool
  | .event _ (.onError _) => true
  | _ => false

namespace Host

/-- What is recorded, reports of errors apart. -/
def deeds (host : Host σ) : List Record :=
  host.journal.toList.filter fun r => !r.reports

/-- Reports only add reports. -/
theorem Extends.reports {error : RuntimeError} {host host' : Host σ}
    (h : host.Extends (Record.TellsOf (.onError error)) host') :
    ∃ tail, host'.journal.toList = host.journal.toList ++ tail ∧ ∀ r ∈ tail, r.reports = true := by
  rcases h.journal with ⟨tail, hjournal, htail⟩
  refine ⟨tail, hjournal, ?_⟩
  intro r hr
  rcases htail r hr with ⟨origin, rfl⟩
  rfl

theorem deeds_of_reports {host host' : Host σ} {tail : List Record}
    (hjournal : host'.journal.toList = host.journal.toList ++ tail)
    (htail : ∀ r ∈ tail, r.reports = true) : host'.deeds = host.deeds := by
  have hnone : tail.filter (fun r => !r.reports) = [] := by
    apply List.filter_eq_nil_iff.mpr
    intro r hr
    simp [htail r hr]
  rw [deeds, deeds, hjournal, List.filter_append, hnone, List.append_nil]

end Host

namespace Outcome

/-- The run left a beginning of what the other left, reports of errors apart. -/
structure Curtails (outcome : Outcome τ) (other : Outcome σ) : Prop where
  written : outcome.state.host.written.toList <+: other.state.host.written.toList
  log : outcome.state.log.toList <+: other.state.log.toList
  deeds : outcome.state.host.deeds <+: other.state.host.deeds

/-- The run is the original, except that a handler, whose calls are counted, failed
after `limit` of them.  After the call that failed, errors are reported and nothing else
is done. -/
structure CutAtCall (limit : Nat) (Calls : Record → Prop) (original : Outcome σ)
    (failing : Outcome (Nat × σ)) : Prop where
  curtails : failing.Curtails original
  unreached : failing.state.host.world.1 ≤ limit →
    failing.error = original.error ∧ failing.state.log = original.state.log ∧
      failing.state.host = original.state.host.beside failing.state.host.world.1
  reached : limit < failing.state.host.world.1 →
    failing.state.host.world.1 = limit + 1 ∧ ∃ done call tail,
      failing.state.host.journal.toList = done ++ call :: tail ∧ Calls call ∧
        done ++ [call] <+: original.state.host.journal.toList ∧ ∀ r ∈ tail, r.reports = true

/-- The run is the free one, except that the sink took `limit` chunks and refused the
next.  After that, errors are reported and nothing else is done. -/
structure CutAtChunk (limit : Nat) (free hindered : Outcome σ) : Prop where
  curtails : hindered.Curtails free
  written : hindered.state.host.written.toList = free.state.host.written.toList.take limit
  unreached : free.state.host.written.size ≤ limit → hindered = free
  reached : limit < free.state.host.written.size → ∃ done text tail,
    hindered.state.host.journal.toList = done ++ tail ∧
      done ++ [.write text] <+: free.state.host.journal.toList ∧ ∀ r ∈ tail, r.reports = true

end Outcome

namespace Program

/-- A run that was cut short only reports that. -/
theorem curtails_of_raises {d : Setting τ} {start : τ} {x : Failure} {t : State τ}
    (h : p.Raises d start x t) {other : Outcome σ}
    (hlog : t.log.toList <+: other.state.log.toList)
    (hwritten : t.host.written.toList <+: other.state.host.written.toList)
    (hjournal : t.host.journal.toList <+: other.state.host.journal.toList) :
    (p.run d start).Curtails other ∧
      (p.run d start).state.host.written = t.host.written ∧
      ∃ tail, (p.run d start).state.host.journal.toList = t.host.journal.toList ++ tail ∧
        ∀ r ∈ tail, r.reports = true := by
  rcases (reports_of_raises h).state with ⟨host, hstate, hextends⟩
  rcases hextends.reports with ⟨tail, htailed, htail⟩
  constructor
  · constructor
    · rw [hstate, hextends.written]
      exact hwritten
    · rw [hstate]
      exact hlog
    · rw [hstate, Host.deeds_of_reports htailed htail]
      exact hjournal.filter _
  · rw [hstate]
    exact ⟨hextends.written, tail, htailed, htail⟩

end Program

/-! ## Sabotaged handlers -/

namespace Setting

def sabotaged (c : Setting σ) (limit : Nat) (sabotage : Sabotage σ) : Setting (Nat × σ) where
  machine := c.machine
  environment := c.environment
  registry := c.registry.sabotaged limit sabotage
  sink := c.sink
  verbose := c.verbose

end Setting

variable {sabotage : Sabotage σ}

theorem lockstep_sabotaged :
    Lockstep p c (c.sabotaged limit sabotage) (0, world)
      (c.registry.sabotaging limit sabotage) where
  environment := rfl
  note := by
    rintro record host _ ⟨count, hcount, rfl⟩
    exact ⟨count, hcount, rfl⟩
  persistent := c.registry.persistent_sabotaging limit sabotage
  emit := fun event _ _ => c.registry.follows_emit c.machine limit sabotage event
  afterStep := fun context _ _ => c.registry.follows_afterStep c.machine limit sabotage context
  filter := fun text _ _ _ _ => c.registry.follows_filterOutput c.machine limit sabotage text
  deliver := by
    rintro text _ host _ rfl ⟨count, hcount, rfl⟩
    cases htaken : c.sink host.written text with
    | none => exact .taken htaken htaken ⟨count, hcount, rfl⟩
    | some reason => exact .refused htaken htaken

/-- Reports of errors call none of the handlers that are counted. -/
theorem follows_report_sabotaged (c : Setting σ) (limit : Nat) (sabotage : Sabotage σ)
    {C : Nat → Prop} (error : RuntimeError) {host : Host σ} {host' : Host (Nat × σ)}
    (hhosts : (Link.counting C fun _ _ _ => False).hosts host host') :
    (Link.counting C fun _ _ _ => False).Follows (.event .onError) (· = ·)
      (c.registry.emit c.machine (.onError error) host)
      ((c.sabotaged limit sabotage).registry.emit (c.sabotaged limit sabotage).machine
        (.onError error) host') := by
  have hlisteners := c.registry.listeners_sabotaged_onError limit sabotage
  have hfollows := Registry.follows_listeners_beside c.machine (.event .onError)
    (.onError error) (c.registry.listeners .onError) hhosts
  rw [← hlisteners] at hfollows
  exact hfollows

theorem count_of_reports {x : Failure} {t : State (Nat × σ)} {outcome : Outcome (Nat × σ)}
    (h : Outcome.Reports (c.sabotaged limit sabotage) t x outcome) :
    outcome.state.host.world.1 = t.host.world.1 := by
  have hhosts : (Link.counting (· = t.host.world.1) fun _ _ _ => False).hosts
      ⟨t.host.world.2, t.host.journal, t.host.written⟩ t.host :=
    ⟨_, rfl, rfl⟩
  have hcount := Link.count_of_follows (follows_report_sabotaged c limit sabotage
    ((x.error t.lastSpan).stamp t.lastIndex) hhosts)
  rcases Outcome.reports_iff.mp h with ⟨host, hok, rfl⟩ | ⟨failure, host, herror, rfl⟩
  · rw [hok] at hcount
    exact hcount
  · rw [herror] at hcount
    exact hcount

/-! ## Refusing sinks -/

/-- The first sink accepts everything, and the second refuses whatever comes after
`limit` chunks.  Where it has, the first run went on with some chunk. -/
def hindering (limit : Nat) : Link σ σ where
  hosts host host' := host' = host ∧ host.written.size ≤ limit
  chunks := Eq
  cut _ host host' := host'.written.size = limit ∧ ∃ text,
    host'.written.toList ++ [text] <+: host.written.toList ∧
      host'.journal.toList ++ [.write text] <+: host.journal.toList

theorem follows_hindering {α : Type} {P : Record → Prop} {point : HookPoint} {host : Host σ}
    {r : EStateM.Result HookError (Host σ) α} (hsize : host.written.size ≤ limit)
    (hextends : host.Extends P (Host.ofResult r)) :
    (hindering limit).uncut.Follows point (· = ·) r r := by
  have hkept : (Host.ofResult r).written.size ≤ limit := by
    rw [hextends.written]
    exact hsize
  cases r with
  | ok a after => exact .ok rfl ⟨rfl, hkept⟩
  | error e after => exact .error e ⟨rfl, hkept⟩

theorem Link.Follows.of_uncut {τ α β : Type} {link : Link σ τ} {point : HookPoint}
    {values : α → β → Prop} {r : EStateM.Result HookError (Host σ) α}
    {r' : EStateM.Result HookError (Host τ) β} (h : link.uncut.Follows point values r r') :
    link.Follows point values r r' := by
  cases h with
  | ok hvalues hhosts => exact .ok hvalues hhosts
  | error e hhosts => exact .error e hhosts
  | cut h => exact h.elim

theorem lockstep_hindering (reason : String) :
    Lockstep p { c with sink := Sink.accepting } { c with sink := Sink.failingAt limit reason }
      world (hindering limit) where
  environment := rfl
  note := by
    rintro record _ host ⟨rfl, hsize⟩
    exact ⟨rfl, hsize⟩
  persistent := by
    rintro x host later host' ⟨hsize, text, hwritten, hjournal⟩ hgrows
    exact ⟨hsize, text, hwritten.trans hgrows.written, hjournal.trans hgrows.journal⟩
  emit := by
    rintro event _ host ⟨rfl, hsize⟩
    exact (follows_hindering hsize (c.registry.extends_emit c.machine event host)).of_uncut
  afterStep := by
    rintro context _ host ⟨rfl, hsize⟩
    exact (follows_hindering hsize
      (c.registry.extends_afterStep c.machine context host)).of_uncut
  filter := by
    rintro text rest host t _ ⟨hhost, hsize⟩
    rw [hhost]
    exact (follows_hindering hsize (c.registry.extends_filterOutput c.machine text host)).of_uncut
  deliver := by
    rintro text _ _ host rfl ⟨rfl, hsize⟩
    by_cases hfull : host.written.size = limit
    · refine .cut rfl (if_pos hfull) ⟨hfull, text, ?_, ?_⟩
      · rw [Host.write, Array.toList_push]
      · rw [Host.write, Array.toList_push]
    · refine .taken rfl (if_neg hfull) ⟨rfl, ?_⟩
      rw [Host.write, Array.size_push]
      omega

/-! ## Outcomes -/

theorem Outcome.eq_of_matches {d : Setting σ} {link : Link σ σ} {outcome other : Outcome σ}
    (herror : other.error = outcome.error)
    (hmatch : State.Matches c d link outcome.state other.state) (hverbose : d.verbose = c.verbose)
    (hhost : other.state.host = outcome.state.host) : other = outcome := by
  rcases outcome with ⟨error, frames, captures, frameCount, log, host⟩
  rcases other with ⟨error', frames', captures', frameCount', log', host'⟩
  rcases hmatch with ⟨hframes, hcaptures, hcount, _, hlog, _⟩
  cases herror
  cases hframes
  cases hcaptures
  cases hcount
  cases hlog hverbose
  cases hhost
  rfl

namespace Program

/-- Up to the call at which the handler fails, a run is what it would have been. -/
theorem sabotaged_run (p : Program) (c : Setting σ) (world : σ) (limit : Nat)
    (sabotage : Sabotage σ) :
    Outcome.CutAtCall limit (sabotage.Calls c.registry) (p.run c world)
      (p.run (c.sabotaged limit sabotage) (0, world)) := by
  have L : Lockstep p c (c.sabotaged limit sabotage) (0, world)
      (c.registry.sabotaging limit sabotage) := lockstep_sabotaged
  have hstart : (c.registry.sabotaging limit sabotage).hosts (Host.initial world)
      (Host.initial (0, world)) :=
    ⟨0, Nat.zero_le limit, rfl⟩
  rcases L.outcomes hstart (fun x s t _ hmatch =>
    follows_report_sabotaged c limit sabotage _ hmatch.host) with
    ⟨herror, hmatch⟩ | ⟨x, t, hraises, hlog, hexceeds⟩
  · have hlog := hmatch.log rfl
    rcases hmatch.host with ⟨count, hcount, hhost⟩
    constructor
    · constructor
      · rw [hhost]
        exact List.prefix_refl _
      · rw [hlog]
      · rw [hhost]
        exact List.prefix_refl _
    · intro _
      refine ⟨herror, hlog, ?_⟩
      rw [hhost]
      rfl
    · intro hreached
      rw [hhost] at hreached
      exact absurd hcount (Nat.not_le_of_lt hreached)
  · have hcount := count_of_reports (reports_of_raises hraises)
    rw [hexceeds.count] at hcount
    rcases curtails_of_raises hraises (hlog rfl) hexceeds.written hexceeds.journal with
      ⟨hcurtails, _, tail, htailed, htail⟩
    rcases hexceeds.last with ⟨done, call, hlast, hcall⟩
    constructor
    · exact hcurtails
    · intro hunreached
      omega
    · intro _
      refine ⟨hcount, done, call, tail, ?_, hcall, ?_, htail⟩
      · rw [htailed, hlast, List.append_assoc]
        rfl
      · rw [← hlast]
        exact hexceeds.journal

/-- Up to the chunk that the sink refuses, a run is what it would have been. -/
theorem hindered_run (p : Program) (c : Setting σ) (world : σ) (limit : Nat)
    (reason : String) :
    Outcome.CutAtChunk limit (p.run { c with sink := Sink.accepting } world)
      (p.run { c with sink := Sink.failingAt limit reason } world) := by
  have L : Lockstep p { c with sink := Sink.accepting }
      { c with sink := Sink.failingAt limit reason } world (hindering limit) :=
    lockstep_hindering reason
  have hreport : ∀ x s t, p.Raises { c with sink := Sink.failingAt limit reason } world x t →
      State.Matches { c with sink := Sink.accepting }
        { c with sink := Sink.failingAt limit reason } (hindering limit) s t →
      (hindering limit).uncut.Follows (.event .onError) (· = ·)
        (c.registry.emit c.machine (.onError ((x.error s.lastSpan).stamp s.lastIndex)) s.host)
        (c.registry.emit c.machine (.onError ((x.error s.lastSpan).stamp s.lastIndex)) t.host) := by
    intro x s t _ hmatch
    rcases hmatch.host with ⟨hhost, hsize⟩
    rw [hhost]
    exact follows_hindering hsize (c.registry.extends_emit c.machine _ s.host)
  rcases L.outcomes ⟨rfl, Nat.zero_le limit⟩ hreport with
    ⟨herror, hmatch⟩ | ⟨x, t, hraises, hlog, hsize, text, hwritten, hjournal⟩
  · rcases hmatch.host with ⟨hhost, hsize⟩
    rw [Outcome.eq_of_matches herror hmatch rfl hhost]
    constructor
    · exact ⟨List.prefix_refl _, List.prefix_refl _, List.prefix_refl _⟩
    · exact (List.take_of_length_le hsize).symm
    · exact fun _ => rfl
    · intro hreached
      exact absurd hsize (Nat.not_le_of_lt hreached)
  · have hbefore := (List.prefix_append _ _).trans hwritten
    rcases curtails_of_raises hraises (hlog rfl) hbefore
        ((List.prefix_append _ _).trans hjournal) with
      ⟨hcurtails, hkept, tail, htailed, htail⟩
    constructor
    · exact hcurtails
    · rw [hkept, List.prefix_iff_eq_take.mp hbefore, Array.length_toList, hsize]
    · intro hunreached
      have hlength := hwritten.length_le
      rw [List.length_append, Array.length_toList, Array.length_toList, hsize] at hlength
      exact absurd hunreached (Nat.not_le_of_lt hlength)
    · intro _
      exact ⟨t.host.journal.toList, text, tail, htailed, hjournal, htail⟩

/-- A run fails fast: whatever handler fails from some call on, except for the listeners
for errors, and wherever the sink begins to refuse chunks. -/
theorem fail_fast (p : Program) (c : Setting σ) (world : σ) (limit : Nat) :
    (∀ sabotage : Sabotage σ,
      Outcome.CutAtCall limit (sabotage.Calls c.registry) (p.run c world)
        (p.run (c.sabotaged limit sabotage) (0, world))) ∧
    ∀ reason,
      Outcome.CutAtChunk limit (p.run { c with sink := Sink.accepting } world)
        (p.run { c with sink := Sink.failingAt limit reason } world) :=
  ⟨sabotaged_run p c world limit, hindered_run p c world limit⟩

/-- A filter that fails at its second chunk, in a macro call, and a sink that takes only
one; the error is reported. -/
theorem run_cut_short :
    let c : Setting Unit :=
      ⟨"m", ⟨[], [("a", ["1", "2"])]⟩,
        ⟨fun _ => [⟨0, ⟨"listener", none⟩, fun _ _ world => .ok () world⟩], [],
          [⟨0, ⟨"filter", none⟩, fun _ text world => .ok (.text text) world⟩]⟩,
        Sink.accepting, false⟩
    let sabotage : Sabotage Unit := .filter 0 fun _ world => (.ordinary "broken", world)
    let source := "x\x7b\x7b a[:] | ?m; @m \"$(_item_)!\" | \"$(_)\" \x7d\x7d"
    ∃ p, compile source = .ok p ∧
      (p.run { c with sink := Sink.failingAt 1 "full" } ()).state.host.written.toList = ["x"] ∧
      (p.run (c.sabotaged 1 sabotage) (0, ())).state.host.written.toList <+: ["x", "1!", "2!"] ∧
      ∃ done call tail,
        (p.run (c.sabotaged 1 sabotage) (0, ())).state.host.journal.toList =
          done ++ call :: tail ∧
        sabotage.Calls c.registry call ∧ ∀ r ∈ tail, r.reports = true := by
  intro c sabotage source
  have hwritten : (compile source).map (fun p => (p.run c ()).state.host.written.toList) =
      .ok ["x", "1!", "2!"] := by
    decide +kernel
  have hcount : (compile source).map
      (fun p => (p.run (c.sabotaged 1 sabotage) (0, ())).state.host.world.1) = .ok 2 := by
    decide +kernel
  cases hcompile : compile source with
  | error e =>
      rw [hcompile] at hwritten
      cases hwritten
  | ok p =>
      rw [hcompile] at hwritten hcount
      have horiginal : (p.run c ()).state.host.written.toList = ["x", "1!", "2!"] :=
        Except.ok.inj hwritten
      have hreached : (p.run (c.sabotaged 1 sabotage) (0, ())).state.host.world.1 = 2 :=
        Except.ok.inj hcount
      rcases fail_fast p c () 1 with ⟨hsabotaged, hhindered⟩
      have hcall := hsabotaged sabotage
      rcases hcall.reached (by omega) with
        ⟨_, done, call, tail, hjournal, hcalls, _, htail⟩
      refine ⟨p, rfl, ?_, ?_, done, call, tail, hjournal, hcalls, htail⟩
      · rw [(hhindered "full").written]
        change (p.run c ()).state.host.written.toList.take 1 = ["x"]
        rw [horiginal]
        rfl
      · rw [← horiginal]
        exact hcall.curtails.written

end Program

end Stencil
