import Stencil.Compile
import Stencil.Proofs.Lockstep

/-!
# Hooks observe, and filters map

As long as no hook fails, a run goes on in step with the one without any hooks.
Only what is written differs: each chunk is what the filters make of it.  A
snapshot of the bindings is taken at each step or not, and nothing else depends on
that.
-/

namespace Stencil

variable {σ : Type} {p : Program} {c : Setting σ} {world : σ}

/-- The sink goes by how many chunks it holds, and not by what they are. -/
def Sink.Blind (sink : Sink) : Prop :=
  ∀ held text held' text', held.size = held'.size → sink held text = sink held' text'

theorem Sink.blind_accepting : accepting.Blind := by
  intro held text held' text' _
  rfl

theorem Sink.blind_failingAt (n : Nat) (reason : String) : (failingAt n reason).Blind := by
  intro held text held' text' hsize
  rw [failingAt, failingAt, hsize]

/-! ## Filters that compute -/

namespace Hook

/-- Whatever the world, the filter makes `f text` of a text. -/
def Computes (machine : String) (f : String → String) (hook : Hook σ String Filtered) : Prop :=
  ∀ text world, ∃ world', hook.handler machine text world = .ok (.text (f text)) world'

theorem call_of_computes {machine text : String} {f : String → String}
    {hook : Hook σ String Filtered} (h : hook.Computes machine f) (record : Origin → Record)
    (host : Host σ) :
    ∃ host', hook.call machine record text host = .ok (.text (f text)) host' := by
  rcases h text (host.note (record hook.origin)).world with ⟨world', hhandler⟩
  simp only [call, hhandler]
  exact ⟨_, rfl⟩

end Hook

namespace Registry

/-- Filters that compute are composed in their order. -/
theorem filterWith_of_computes {machine : String} {hooks : List (Hook σ String Filtered)}
    {fs : List (String → String)}
    (h : List.Forall₂ (fun hook f => Hook.Computes machine f hook) hooks fs) (text : String)
    (host : Host σ) :
    ∃ host', filterWith machine hooks text host =
      .ok (fs.foldl (fun text f => f text) text) host' := by
  induction h generalizing text host with
  | nil => exact ⟨host, rfl⟩
  | @cons hook f hooks fs hcomputes _ ih =>
      rcases Hook.call_of_computes hcomputes (.filter · text) host with ⟨between, hcall⟩
      rcases ih (f text) between with ⟨host', hrest⟩
      refine ⟨host', ?_⟩
      rw [filterWith]
      change EStateM.bind _ _ host = _
      rw [EStateM.bind, hcall]
      exact hrest

end Registry

/-! ## Without hooks -/

namespace Program

/-- No hook fails in the run, nor when its error is reported. -/
structure Undisturbed (p : Program) (c : Setting σ) (world : σ) : Prop where
  run : ∀ point e s, ¬p.Raises c world (.handler point e) s
  report : ∀ x s e host, p.Raises c world x s →
    c.registry.emit c.machine (.onError ((x.error s.lastSpan).stamp s.lastIndex)) s.host ≠
      .error e host

/-- When the run comes to filter the first text, the filters make the second of it. -/
def Filters (p : Program) (c : Setting σ) (world : σ) (text filtered : String) : Prop :=
  ∃ rest s host, p.Reaches c world (.filter text :: rest) s ∧
    c.registry.filterOutput c.machine text s.host = .ok filtered host

/-- Hooks that never fail, in no world, disturb no run. -/
theorem undisturbed_of_not_throws
    (h : ∀ point e, ¬c.registry.Throws c.machine point e) : p.Undisturbed c world where
  run := by
    intro point e s hraises
    cases origin_of_raises hraises with
    | thrown hthrows => exact h point e hthrows
  report := by
    intro x s e host _ hemit
    exact h _ e (Registry.throws_of_emit hemit)

/-- With hooks each chunk is filtered, and without hooks it is not. -/
def filtering (p : Program) (c : Setting σ) (world : σ) : Link σ σ where
  hosts host host' :=
    List.Forall₂ (p.Filters c world) host.written.toList host'.written.toList
  chunks := p.Filters c world
  cut x _ _ := ∃ point e, x = .handler point e

theorem follows_filtering {α β : Type} {values : α → β → Prop} {point : HookPoint} {a : α}
    {host host' : Host σ} {P : Record → Prop} {r : EStateM.Result HookError (Host σ) β}
    (hhosts : (p.filtering c world).hosts host host')
    (hextends : host'.Extends P (Host.ofResult r))
    (hvalues : ∀ b after, r = .ok b after → values a b) :
    (p.filtering c world).Follows point values (.ok a host) r := by
  cases r with
  | ok b after =>
      apply Link.Follows.ok (hvalues b after rfl)
      change List.Forall₂ _ _ after.written.toList
      rw [show after.written = host'.written from hextends.written]
      exact hhosts
  | error e after => exact .cut ⟨point, e, rfl⟩

theorem lockstep_filtering (hsink : c.sink.Blind) :
    Lockstep p { c with registry := Registry.empty } c world (p.filtering c world) where
  environment := rfl
  note := fun _ _ _ hhosts => hhosts
  persistent := fun hcut _ => hcut
  emit := by
    intro event host host' hhosts
    exact follows_filtering hhosts (c.registry.extends_emit c.machine event host')
      (fun _ _ _ => rfl)
  afterStep := by
    intro context host host' hhosts
    exact follows_filtering hhosts (c.registry.extends_afterStep c.machine context host')
      (fun _ _ _ => rfl)
  filter := by
    intro text rest host t hreaches hhosts
    apply follows_filtering hhosts (c.registry.extends_filterOutput c.machine text t.host)
    intro filtered after hfiltered
    exact ⟨rest, t, after, hreaches, hfiltered⟩
  deliver := by
    intro text text' host host' hchunks hhosts
    have hsize : host.written.size = host'.written.size := hhosts.length_eq
    have hsame : c.sink host.written text = c.sink host'.written text' :=
      hsink _ _ _ _ hsize
    cases htaken : c.sink host.written text with
    | none =>
        refine .taken htaken (hsame ▸ htaken) ?_
        change List.Forall₂ _ (host.written.push text).toList (host'.written.push text').toList
        rw [Array.toList_push, Array.toList_push]
        exact List.rel_append hhosts (.cons hchunks .nil)
    | some reason => exact .refused htaken (hsame ▸ htaken)

theorem follows_report (h : p.Undisturbed c world) {x : Failure} {s t : State σ}
    (hraises : p.Raises c world x t)
    (hmatch : State.Matches { c with registry := Registry.empty } c (p.filtering c world) s t) :
    (p.filtering c world).uncut.Follows (.event .onError) (· = ·)
      (.ok () s.host)
      (c.registry.emit c.machine (.onError ((x.error s.lastSpan).stamp s.lastIndex)) t.host) := by
  have hextends := c.registry.extends_emit c.machine
    (.onError ((x.error s.lastSpan).stamp s.lastIndex)) t.host
  have hreport := h.report x t
  rw [hmatch.lastSpan, hmatch.lastIndex] at hreport
  cases hemit : c.registry.emit c.machine (.onError ((x.error s.lastSpan).stamp s.lastIndex))
      t.host with
  | ok a host =>
      rw [hemit] at hextends
      apply Link.Follows.ok rfl
      change List.Forall₂ _ _ host.written.toList
      rw [show host.written = t.host.written from hextends.written]
      exact hmatch.host
  | error e host => exact absurd hemit (hreport e host hraises)

theorem written_of_computes {fs : List (String → String)}
    (hfs : List.Forall₂ (fun hook f => Hook.Computes c.machine f hook) c.registry.filters fs)
    {texts filtered : List String} (h : List.Forall₂ (p.Filters c world) texts filtered) :
    filtered = texts.map (fs.foldl fun text f => f text) := by
  induction h with
  | nil => rfl
  | @cons text filtered texts rest hfilters _ ih =>
      rcases hfilters with ⟨_, s, host, _, hok⟩
      rcases Registry.filterWith_of_computes hfs text s.host with ⟨host', hcomputed⟩
      rw [Registry.filterOutput, hcomputed] at hok
      cases hok
      rw [List.map_cons, ih]

/-! ## With and without snapshots -/

/-- The hosts and the chunks are equal. -/
def equating : Link σ σ where
  hosts := Eq
  chunks := Eq
  cut _ _ _ := False

theorem follows_equating {α : Type} {point : HookPoint}
    (r : EStateM.Result HookError (Host σ) α) :
    equating.uncut.Follows point (· = ·) r r := by
  cases r with
  | ok a host => exact .ok rfl rfl
  | error e host => exact .error e rfl

theorem lockstep_equating (verbose : Bool) :
    Lockstep p c { c with verbose := verbose } world equating where
  environment := rfl
  note := by
    rintro record host _ rfl
    rfl
  persistent := fun hcut _ => hcut
  emit := by
    rintro event host _ rfl
    exact follows_equating _
  afterStep := by
    rintro context host _ rfl
    exact follows_equating _
  filter := by
    rintro text rest _ t _ rfl
    exact follows_equating _
  deliver := by
    rintro text _ host _ rfl rfl
    cases htaken : c.sink host.written text with
    | none => exact .taken htaken htaken rfl
    | some reason => exact .refused htaken htaken

/-! ## Outcomes -/

/-- A run in which no hook fails ends as the run without hooks does: with the same
error, frames, captures and log.  Its chunks are those of the other run, each as the
filters made it when the run came to write it, and so, where the filters compute, under
their composition.  Without or with snapshots, a run is the same but for these. -/
theorem run_observed (p : Program) (c : Setting σ) (world : σ) :
    let plain := p.run { c with registry := Registry.empty } world
    let hooked := p.run c world
    (p.Undisturbed c world → c.sink.Blind →
      hooked.error = plain.error ∧ hooked.state.frames = plain.state.frames ∧
      hooked.state.captures = plain.state.captures ∧
      hooked.state.frameCount = plain.state.frameCount ∧
      hooked.state.log = plain.state.log ∧
      List.Forall₂ (p.Filters c world) plain.state.host.written.toList
        hooked.state.host.written.toList ∧
      ∀ fs, List.Forall₂ (fun hook f => Hook.Computes c.machine f hook) c.registry.filters fs →
        hooked.state.host.written.toList =
          plain.state.host.written.toList.map (fs.foldl fun text f => f text)) ∧
    ∀ verbose,
      let other := p.run { c with verbose := verbose } world
      other.error = hooked.error ∧ other.state.frames = hooked.state.frames ∧
      other.state.captures = hooked.state.captures ∧
      other.state.frameCount = hooked.state.frameCount ∧
      other.state.host = hooked.state.host ∧
      other.state.log.toList.map LogEntry.bare = hooked.state.log.toList.map LogEntry.bare := by
  intro plain hooked
  constructor
  · intro hundisturbed hsink
    have L : Lockstep p { c with registry := Registry.empty } c world (p.filtering c world) :=
      lockstep_filtering hsink
    rcases L.outcomes .nil (fun _ _ _ => follows_report hundisturbed) with
      ⟨herror, hmatch⟩ | ⟨x, t, hraises, ⟨_, point, e, rfl⟩⟩
    · refine ⟨herror, hmatch.frames, hmatch.captures, hmatch.frameCount, hmatch.log rfl,
        hmatch.host, ?_⟩
      intro fs hfs
      exact written_of_computes hfs hmatch.host
    · exact absurd hraises (hundisturbed.run point e t)
  · intro verbose other
    have L : Lockstep p c { c with verbose := verbose } world equating :=
      lockstep_equating verbose
    rcases L.outcomes rfl (by
      rintro x s t _ ⟨_, _, _, _, _, hhost⟩
      rw [← show s.host = t.host from hhost]
      exact follows_equating _) with
      ⟨herror, hmatch⟩ | ⟨x, t, hraises, hcut⟩
    · exact ⟨herror, hmatch.frames, hmatch.captures, hmatch.frameCount, hmatch.host.symm,
        hmatch.bare⟩
    · exact hcut.host.elim

/-- Two filters over a macro call, in a world that counts the calls of hooks. -/
theorem run_bracketed :
    let around : String → String → Hook Nat String Filtered := fun opening closing =>
      ⟨0, ⟨"brackets", none⟩, fun _ text world =>
        .ok (.text (opening ++ text ++ closing)) (world + 1)⟩
    let c : Setting Nat :=
      ⟨"m", ⟨[], [("a", ["1", "2"])]⟩,
        ⟨fun _ => [⟨0, ⟨"counter", none⟩, fun _ _ world => .ok () (world + 1)⟩], [],
          [around "[" "]", around "<" ">"]⟩,
        Sink.accepting, true⟩
    let source := "x\x7b\x7b a[:] | ?m; @m \"$(_item_)!\" | \"$(_)\"; u \x7d\x7d"
    ∃ p, compile source = .ok p ∧ p.Undisturbed c 0 ∧ c.sink.Blind ∧
      (p.run c 0).state.host.written.toList = ["<[x]>", "<[1!]>", "<[2!]>"] ∧
      (p.run c 0).error.map RuntimeError.cause = some (.undefinedVariable "u") := by
  intro around c source
  let plain : Setting Nat := { c with registry := Registry.empty }
  have hwritten : (compile source).map (fun p => (p.run plain 0).state.host.written.toList) =
      .ok ["x", "1!", "2!"] := by
    decide +kernel
  have hfails : (compile source).map
      (fun p => (p.run plain 0).error.map RuntimeError.cause) =
      .ok (some (.undefinedVariable "u")) := by
    decide +kernel
  have hthrows : ∀ point e, ¬c.registry.Throws c.machine point e := by
    intro point e
    cases point <;>
      simp [Registry.Throws, Hook.Throws, Hook.Misfilters, c, around]
  have hcomputes : List.Forall₂ (fun hook f => Hook.Computes c.machine f hook)
      c.registry.filters [fun text => "[" ++ text ++ "]", fun text => "<" ++ text ++ ">"] := by
    refine .cons ?_ (.cons ?_ .nil)
    · exact fun text world => ⟨world + 1, rfl⟩
    · exact fun text world => ⟨world + 1, rfl⟩
  cases hcompile : compile source with
  | error e =>
      rw [hcompile] at hwritten
      cases hwritten
  | ok p =>
      rw [hcompile] at hwritten hfails
      have hundisturbed : p.Undisturbed c 0 := undisturbed_of_not_throws hthrows
      have hplain : (p.run plain 0).state.host.written.toList = ["x", "1!", "2!"] :=
        Except.ok.inj hwritten
      rcases (run_observed p c 0).1 hundisturbed Sink.blind_accepting with
        ⟨herror, _, _, _, _, _, hmap⟩
      refine ⟨p, rfl, hundisturbed, Sink.blind_accepting, ?_, ?_⟩
      · rw [hmap _ hcomputes, hplain]
        decide +kernel
      · rw [herror]
        exact Except.ok.inj hfails

end Program

end Stencil
