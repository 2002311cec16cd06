import Stencil.Proofs.Failures
import Stencil.Proofs.Shape

/-!
# Compiled programs do not break the machine

The tasks of a run move the machine between shapes as the code does that they
come from.  Each step keeps that: what is left to do moves the machine from the
shape it is in to where the run began, outside of all frames and captures.  A
step that fails does so for a name without a value, or because of a hook or the
sink.
-/

namespace Stencil

variable {σ : Type} {c : Setting σ} {macros : MacroTable} {t t' t'' : Shape}
  {s s' : State σ}

/-- A name without a value. -/
def Cause.Undefined (cause : Cause) : Prop :=
  ∃ name, cause = .undefinedVariable name ∨ cause = .undefinedArray name

namespace Failure

/-- What may stop a compiled program. -/
def Expected : Failure → Prop
  | machine e => e.cause.Undefined
  | handler _ _ => True
  | breakdown b => ∃ reason, b = .sinkRefused reason

theorem undefined_of_harmless {x : Failure} (hc : c.Harmless) (hexpected : x.Expected)
    (horigin : x.Origin c macros s) (lastSpan : Option Span) :
    (x.error lastSpan).cause.Undefined := by
  cases x with
  | machine e => exact hexpected
  | handler point e =>
      cases horigin with
      | thrown h => exact absurd h (hc.hooks point e)
  | breakdown b =>
      rcases hexpected with ⟨reason, rfl⟩
      cases horigin with
      | sinkRefused h =>
          rw [hc.sink] at h
          cases h

end Failure

namespace Task

/-- What a task does to the shape. -/
inductive Moves (macros : MacroTable) : Shape → Task → Shape → Prop where
  | announce (t : Shape) (event : Event) : Moves macros t (announce event) t
  | log (t : Shape) (i : Instruction) : Moves macros t (log i) t
  | rules (t : Shape) (context : StepContext) : Moves macros t (rules context) t
  | write (t : Shape) (text : String) : Moves macros t (write text) t
  | filter (t : Shape) (text : String) : Moves macros t (filter text) t
  | deliver (t : Shape) (text : String) : Moves macros t (deliver text) t
  | perform {t t' : Shape} {depth : Nat} (span : Option Span) {action : Action}
      (h : action.Moves macros depth t t') : Moves macros t (perform depth span action) t'
  | bind (name text : String) : Moves macros ⟨.scope, false⟩ (bind name text) ⟨.scope, false⟩
  | leave {outer inner : Region} {kind : FrameKind} (h : outer.Opens kind inner) :
      Moves macros ⟨inner, false⟩ leave ⟨outer, false⟩
  | loop {depth : Nat} (opening : Option Span) (array : String) {body : Code}
      (h : body.Moves macros depth .item .item) :
      Moves macros .start (loop depth opening array body) .start
  | items {depth : Nat} (array : String) (span : Option Span) {body : Code} (index : Nat)
      (found : List String) (h : body.Moves macros depth .item .item) :
      Moves macros .start (items depth array span body index found) .start
  | code {t t' : Shape} {depth : Nat} {matched : Code} (h : matched.Moves macros depth t t') :
      Moves macros t (code depth matched) t'
  | fragment {t t' : Shape} {depth : Nat} {is : List Instruction}
      (h : MovesAll macros depth t is t') : Moves macros t (fragment depth is) t'
  | enter (depth : Nat) (span : Option Span) {m : Macro} {outer inner : Region}
      (hopens : outer.Opens .call inner) (hbody : EmitsOnly m.body) :
      Moves macros ⟨outer, true⟩ (enter depth span m) ⟨inner, false⟩
  | invoke (depth : Nat) (span : Option Span) {m : Macro} (text : String)
      {outer inner : Region} (hopens : outer.Opens .call inner) (hbody : EmitsOnly m.body) :
      Moves macros ⟨outer, false⟩ (invoke depth span m text) ⟨inner, false⟩

end Task

namespace Agenda

inductive Moves (macros : MacroTable) : Shape → List Task → Shape → Prop where
  | nil (t : Shape) : Moves macros t [] t
  | cons {t t' t'' : Shape} {task : Task} {tasks : List Task}
      (htask : task.Moves macros t t') (htasks : Moves macros t' tasks t'') :
      Moves macros t (task :: tasks) t''

theorem moves_append {first second : List Task} (hfirst : Moves macros t first t')
    (hsecond : Moves macros t' second t'') : Moves macros t (first ++ second) t'' := by
  induction hfirst with
  | nil t => exact hsecond
  | cons htask _ ih => exact .cons htask (ih hsecond)

theorem moves_one {task : Task} (h : task.Moves macros t t') : Moves macros t [task] t' :=
  .cons h (.nil t')

end Agenda

/-! ## Shapes and states -/

namespace Shape

theorem fits_initial (world : σ) : Shape.start.Fits (State.initial world) :=
  ⟨rfl, rfl⟩

theorem fits_opened {outer inner : Region} {kind : FrameKind} {capturing : Bool}
    (hopens : outer.Opens kind inner) (hs : Fits ⟨outer, capturing⟩ s) (name : String)
    (span : Option Span) (values : Bindings) :
    Fits ⟨inner, capturing⟩ (s.opened name kind span values) := by
  rcases hs with ⟨hframes, hcaptures⟩
  constructor
  · show kind :: s.frames.map Frame.kind = inner.kinds
    rw [hframes, hopens]
  · exact hcaptures

theorem fits_closed {outer inner : Region} {kind : FrameKind} {capturing : Bool}
    (hopens : outer.Opens kind inner) (hs : Fits ⟨inner, capturing⟩ s) {frame : Frame}
    {rest : ScopeStack} (hframes : s.frames = frame :: rest) :
    Fits ⟨outer, capturing⟩ { s with frames := rest } := by
  rcases hs with ⟨hkinds, hcaptures⟩
  constructor
  · rw [hframes, hopens, List.map_cons] at hkinds
    exact (List.cons.inj hkinds).2
  · exact hcaptures

theorem fits_captured {region : Region} (hs : Fits ⟨region, false⟩ s) :
    Fits ⟨region, true⟩ { s with captures := "" :: s.captures } := by
  rcases hs with ⟨hframes, hcaptures⟩
  constructor
  · exact hframes
  · show s.captures.length + 1 = 1
    rw [hcaptures]
    rfl

theorem fits_uncaptured {region : Region} (hs : Fits ⟨region, true⟩ s) {text : String}
    {outer : List String} (hcaptures : s.captures = text :: outer) :
    Fits ⟨region, false⟩ { s with captures := outer } := by
  rcases hs with ⟨hframes, hlength⟩
  constructor
  · exact hframes
  · rw [hcaptures] at hlength
    exact Nat.succ.inj hlength

theorem frames_ne_nil {outer inner : Region} {kind : FrameKind} {capturing : Bool}
    (hopens : outer.Opens kind inner) (hs : Fits ⟨inner, capturing⟩ s) : s.frames ≠ [] := by
  intro hframes
  have hkinds := hs.1
  rw [hframes, hopens] at hkinds
  cases hkinds

theorem captures_ne_nil {region : Region} (hs : Fits ⟨region, true⟩ s) : s.captures ≠ [] := by
  intro hcaptures
  have hlength := hs.2
  rw [hcaptures] at hlength
  cases hlength

/-- The five stacks of frames that compiled code has, outermost first. -/
theorem frames_of_fits (hs : t.Fits s) :
    s.frames.reverse.map Frame.kind ∈
      [[], [.iteration], [.iteration, .call], [.scope], [.scope, .call]] := by
  rw [List.map_reverse, hs.1]
  cases t.region <;> simp [Region.kinds]

theorem captures_of_fits (hs : t.Fits s) : s.captures.length ≤ 1 := by
  rw [hs.2]
  cases t.capturing <;> decide

end Shape

/-! ## Steps keep the moves -/

namespace Task

/-- Where a task takes a step, what stands in its place does the rest of its
move. -/
def Kept (macros : MacroTable) (t' : Shape) (tasks : List Task) (s : State σ) : Prop :=
  ∃ t, t.Fits s ∧ Agenda.Moves macros t tasks t'

theorem kept_of_perform {depth : Nat} {span : Option Span} {action : Action}
    {tasks : List Task} (hmoves : action.Moves macros depth t t') (hs : t.Fits s)
    (hsteps : Steps c macros (perform depth span action) s tasks s') :
    Kept macros t' tasks s' := by
  cases hmoves with
  | emitLiteral depth t text =>
      cases hsteps
      exact ⟨t, hs, Agenda.moves_one (.write t text)⟩
  | emitVar depth t name =>
      cases hsteps
      exact ⟨t, hs, Agenda.moves_one (.write t _)⟩
  | beginMacroCall depth hopens hemits =>
      cases hsteps with
      | call _ _ _ hfound =>
          rcases hemits with ⟨m, hm, hpattern, hbody⟩
          rw [hm] at hfound
          cases hfound
          refine ⟨_, Shape.fits_captured hs, ?_⟩
          exact .cons (.fragment (movesAll_of_emitsOnly hpattern _))
            (Agenda.moves_one (.enter depth span hopens hbody))
  | endMacroCall depth hopens =>
      cases hsteps
      exact ⟨_, hs, Agenda.moves_one (.leave hopens)⟩
  | pushScope depth =>
      cases hsteps
      have hopens : Region.Opens .document .scope .scope := rfl
      exact ⟨_, Shape.fits_opened hopens hs _ _ _, .nil _⟩
  | popScope depth =>
      cases hsteps
      have hopens : Region.Opens .document .scope .scope := rfl
      exact ⟨_, hs, Agenda.moves_one (.leave hopens)⟩
  | beginCapture depth =>
      cases hsteps
      exact ⟨_, Shape.fits_captured hs, .nil _⟩
  | endCapture depth name =>
      cases hsteps with
      | endCapture _ _ _ hcaptures =>
          exact ⟨_, Shape.fits_uncaptured hs hcaptures, Agenda.moves_one (.bind name _)⟩
  | comment depth t text =>
      cases hsteps
      exact ⟨t, hs, .nil t⟩

theorem kept_of_code {depth : Nat} {matched : Code} {tasks : List Task}
    (hmoves : matched.Moves macros depth t t') (hs : t.Fits s)
    (hsteps : Steps c macros (code depth matched) s tasks s') : Kept macros t' tasks s' := by
  cases hmoves with
  | done t =>
      cases hsteps
      exact ⟨t, hs, .nil t⟩
  | step span haction hrest =>
      cases hsteps
      exact ⟨t, hs, .cons (.log t _)
        (.cons (.perform span haction) (Agenda.moves_one (.code hrest)))⟩
  | loop opening closing array hbody hrest =>
      cases hsteps
      exact ⟨.start, hs, .cons (.log .start _) (.cons (.loop opening array hbody)
        (.cons (.log .start _) (Agenda.moves_one (.code hrest))))⟩

/-- The step lemma: a task that moves the machine from its shape to another is
replaced by tasks that do. -/
theorem kept_of_steps {task : Task} {tasks : List Task} (hmoves : task.Moves macros t t')
    (hs : t.Fits s) (hsteps : Steps c macros task s tasks s') : Kept macros t' tasks s' := by
  cases hmoves with
  | announce t event =>
      cases hsteps
      exact ⟨t, hs, .nil t⟩
  | log t i =>
      cases hsteps
      exact ⟨t, hs, Agenda.moves_one (.rules t _)⟩
  | rules t context =>
      cases hsteps
      exact ⟨t, hs, .nil t⟩
  | write t text =>
      cases hsteps with
      | capture hcaptures =>
          refine ⟨t, ⟨hs.1, ?_⟩, .nil t⟩
          rw [← hs.2, hcaptures]
          rfl
      | write _ hcaptures => exact ⟨t, hs, Agenda.moves_one (.filter t text)⟩
  | filter t text =>
      cases hsteps
      exact ⟨t, hs, Agenda.moves_one (.deliver t _)⟩
  | deliver t text =>
      cases hsteps
      exact ⟨t, hs, .nil t⟩
  | perform span haction => exact kept_of_perform haction hs hsteps
  | bind name text =>
      cases hsteps with
      | bind _ _ hframes =>
          refine ⟨_, ⟨?_, hs.2⟩, .nil _⟩
          rw [← hs.1, hframes]
          rfl
  | leave hopens =>
      cases hsteps with
      | leave hframes => exact ⟨_, Shape.fits_closed hopens hs hframes, .nil _⟩
  | loop opening array hbody =>
      cases hsteps
      exact ⟨.start, hs, .cons (.announce .start _)
        (Agenda.moves_one (.items array opening 0 _ hbody))⟩
  | items array span index found hbody =>
      have hopens : Region.Opens .document .iteration .iteration := rfl
      cases hsteps with
      | noItem => exact ⟨.start, hs, .nil .start⟩
      | item _ _ _ _ _ item rest _ =>
          refine ⟨.item, Shape.fits_opened hopens hs _ _ _, ?_⟩
          exact .cons (.code hbody) (.cons (.leave hopens)
            (Agenda.moves_one (.items array span (index + 1) rest hbody)))
  | code hmatched => exact kept_of_code hmatched hs hsteps
  | fragment his =>
      cases hsteps with
      | fragment _ _ hmatched =>
          rcases his with ⟨code, rfl, hcode⟩
          rw [Code.ofInstructions_toInstructions] at hmatched
          cases hmatched
          exact ⟨t, hs, Agenda.moves_one (.code hcode)⟩
  | enter depth span hopens hbody =>
      cases hsteps with
      | enter _ _ _ hcaptures =>
          refine ⟨_, Shape.fits_uncaptured hs hcaptures, ?_⟩
          exact .cons (.announce _ _) (Agenda.moves_one (.invoke depth span _ hopens hbody))
  | invoke depth span text hopens hbody =>
      cases hsteps
      refine ⟨_, Shape.fits_opened hopens hs _ _ _, ?_⟩
      exact Agenda.moves_one (.fragment (movesAll_of_emitsOnly hbody _))

theorem expected_of_fails {task : Task} {x : Failure} (hmoves : task.Moves macros t t')
    (hs : t.Fits s) (hfails : Fails c macros task s x s') : t.Fits s' ∧ x.Expected := by
  cases hfails with
  | announce h => exact ⟨hs, trivial⟩
  | rules h => exact ⟨hs, trivial⟩
  | filter h => exact ⟨hs, trivial⟩
  | deliver h => exact ⟨hs, _, rfl⟩
  | @emitVar depth span name _ h => exact ⟨hs, name, .inl rfl⟩
  | tooDeep span name block _ =>
      cases hmoves with
      | perform _ haction => cases haction
  | missing depth span _ h =>
      cases hmoves with
      | perform _ haction =>
          cases haction with
          | beginMacroCall _ _ hemits =>
              rcases hemits with ⟨m, hm, _⟩
              rw [hm] at h
              cases h
  | endCapture depth span name h =>
      cases hmoves with
      | perform _ haction =>
          cases haction
          exact absurd h (Shape.captures_ne_nil hs)
  | nop depth span _ =>
      cases hmoves with
      | perform _ haction => cases haction
  | bind name text h =>
      have hopens : Region.Opens .document .scope .scope := rfl
      cases hmoves
      exact absurd h (Shape.frames_ne_nil hopens hs)
  | leave h =>
      cases hmoves with
      | leave hopens => exact absurd h (Shape.frames_ne_nil hopens hs)
  | @loop depth opening array body _ h => exact ⟨hs, array, .inr rfl⟩
  | fragment depth _ h =>
      cases hmoves with
      | fragment his =>
          rcases his with ⟨code, rfl, _⟩
          rw [Code.ofInstructions_toInstructions] at h
          cases h
  | enter depth span m h =>
      cases hmoves
      exact absurd h (Shape.captures_ne_nil hs)

end Task

namespace Agenda

/-- What is left to do in any state that is reached leads back to where the run
began. -/
theorem moves_of_leads {tasks tasks' : List Task} (h : Leads c macros tasks s tasks' s')
    (hs : t.Fits s) (hmoves : Moves macros t tasks .start) :
    ∃ t' : Shape, t'.Fits s' ∧ Moves macros t' tasks' .start := by
  -- every step leaves a shape of its own, in which the next one starts
  induction h generalizing t with
  | refl tasks s => exact ⟨t, hs, hmoves⟩
  | step hstep _ ih =>
      cases hmoves with
      | cons htask htasks =>
          rcases Task.kept_of_steps htask hs hstep with ⟨t', ht', hnew⟩
          exact ih ht' (moves_append hnew htasks)

theorem expected_of_raises {tasks : List Task} {x : Failure}
    (h : Raises c macros tasks s x s') (hs : t.Fits s)
    (hmoves : Moves macros t tasks .start) : ∃ t' : Shape, t'.Fits s' ∧ x.Expected := by
  rcases h with ⟨task, rest, before, hleads, hfails⟩
  rcases moves_of_leads hleads hs hmoves with ⟨t', ht', hmoves'⟩
  cases hmoves' with
  | cons htask _ => exact ⟨t', Task.expected_of_fails htask ht' hfails⟩

end Agenda

/-! ## Runs -/

namespace Program

variable {source : String} {p : Program} {world : σ}

theorem moves_agenda (hcompile : compile source = .ok p) :
    Agenda.Moves p.macros .start p.agenda .start := by
  have hdepth : Exec.callDepth p.macros = p.macros.size + 999 + 1 := rfl
  have hinstructions := movesAll_of_compile hcompile (p.macros.size + 999)
  rw [← hdepth] at hinstructions
  exact .cons (.announce _ _)
    (.cons (.fragment hinstructions) (Agenda.moves_one (.announce _ _)))

theorem fits_of_reaches (hcompile : compile source = .ok p) {tasks : List Task}
    (h : p.Reaches c world tasks s) :
    ∃ t : Shape, t.Fits s ∧ Agenda.Moves p.macros t tasks .start :=
  Agenda.moves_of_leads h (Shape.fits_initial world) (moves_agenda hcompile)

theorem fits_of_raises (hcompile : compile source = .ok p) {x : Failure}
    (h : p.Raises c world x s) : ∃ t : Shape, t.Fits s ∧ x.Expected :=
  Agenda.expected_of_raises h (Shape.fits_initial world) (moves_agenda hcompile)

/-- Only the host changes while a failure is reported. -/
theorem fits_of_reports {x : Failure} {outcome : Outcome σ} (hs : t.Fits s)
    (h : Outcome.Reports c s x outcome) : t.Fits outcome.state := by
  cases h with
  | told => exact hs
  | replaced => exact hs

theorem fits_of_visits (hcompile : compile source = .ok p) (h : p.Visits c world s) :
    ∃ t : Shape, t.Fits s := by
  cases h with
  | reached hreaches =>
      rcases fits_of_reaches hcompile hreaches with ⟨t, ht, _⟩
      exact ⟨t, ht⟩
  | raised hraises =>
      rcases fits_of_raises hcompile hraises with ⟨t, ht, _⟩
      exact ⟨t, ht⟩
  | ended =>
      rcases completes_or_raises p c world with ⟨s', hreaches⟩ | ⟨x, s', hraises⟩
      · rcases fits_of_reaches hcompile hreaches with ⟨t, ht, _⟩
        rw [run_of_reaches hreaches]
        exact ⟨t, ht⟩
      · rcases fits_of_raises hcompile hraises with ⟨t, ht, _⟩
        rw [run_of_raises hraises]
        exact ⟨t, fits_of_reports ht (Outcome.reports_failed c s' x)⟩

theorem undefined_of_reports {x : Failure} {outcome : Outcome σ} (hc : c.Harmless)
    (hexpected : x.Expected) (horigin : x.Origin c macros s)
    (h : Outcome.Reports c s x outcome) {e : RuntimeError} (he : outcome.error = some e) :
    e.cause.Undefined := by
  rcases Outcome.reports_iff.mp h with ⟨host, _, rfl⟩ | ⟨failure, host, hemit, rfl⟩
  · cases he
    exact Failure.undefined_of_harmless hc hexpected horigin s.lastSpan
  · exact absurd (Registry.throws_of_emit hemit) (hc.hooks _ _)

/-- In every state of a run, compiled code has no more than two frames and one
capture open.  A run that succeeds closes them all; a run that fails does so
because of a hook, the sink or an undefined name, and an undefined name alone
stops it where hooks and sink are harmless. -/
theorem compiled_run_sound (c : Setting σ) (world : σ) (hcompile : compile source = .ok p) :
    (∀ s, p.Visits c world s →
      s.frames.reverse.map Frame.kind ∈
        [[], [.iteration], [.iteration, .call], [.scope], [.scope, .call]] ∧
      s.captures.length ≤ 1) ∧
    ((p.run c world).error = none →
      (p.run c world).state.frames = [] ∧ (p.run c world).state.captures = []) ∧
    ((∃ s, p.Reaches c world [] s ∧ p.run c world = ⟨none, s⟩) ∨
      ∃ x s, p.Raises c world x s ∧ x.Expected ∧ Outcome.Reports c s x (p.run c world)) ∧
    (c.Harmless → ∀ e, (p.run c world).error = some e → e.cause.Undefined) := by
  have hvisits : ∀ s, p.Visits c world s →
      s.frames.reverse.map Frame.kind ∈
        [[], [.iteration], [.iteration, .call], [.scope], [.scope, .call]] ∧
      s.captures.length ≤ 1 := by
    intro s hs
    rcases fits_of_visits hcompile hs with ⟨t, ht⟩
    constructor
    · exact Shape.frames_of_fits ht
    · exact Shape.captures_of_fits ht
  refine ⟨hvisits, ?_⟩
  rcases completes_or_raises p c world with ⟨s, hreaches⟩ | ⟨x, s, hraises⟩
  · have hrun := run_of_reaches hreaches
    rcases fits_of_reaches hcompile hreaches with ⟨t, ⟨hframes, hcaptures⟩, hmoves⟩
    cases hmoves
    refine ⟨?_, .inl ⟨s, hreaches, hrun⟩, ?_⟩
    · intro _
      rw [hrun]
      constructor
      · exact List.map_eq_nil_iff.mp hframes
      · exact List.length_eq_zero_iff.mp hcaptures
    · intro _ e he
      rw [hrun] at he
      cases he
  · have hrun : Outcome.Reports c s x (p.run c world) := by
      rw [run_of_raises hraises]
      exact Outcome.reports_failed c s x
    rcases fits_of_raises hcompile hraises with ⟨t, _, hexpected⟩
    refine ⟨?_, .inr ⟨x, s, hraises, hexpected, hrun⟩, ?_⟩
    · intro hnone
      generalize p.run c world = outcome at hrun hnone
      cases hrun <;> cases hnone
    · intro hc e he
      exact undefined_of_reports hc hexpected (origin_of_raises hraises) hrun he

/-- Both kinds of pipes, first with what they use, and then without it. -/
theorem run_closes_scopes :
    let c : Environment → Setting Unit :=
      fun env => ⟨"m", env, Registry.empty, Sink.accepting, false⟩
    let env : Environment := ⟨[("x", "v")], [("a", ["1", "2"])]⟩
    let source := "\x7b\x7b a[:] | ?m; x | ?m; @m \"$(_item_)\" | \"$(_)\" \x7d\x7d"
    ∃ p, compile source = .ok p ∧
      ((p.run (c env) ()).error = none ∧ (p.run (c env) ()).state.frames = [] ∧
        (p.run (c env) ()).state.captures = []) ∧
      (c .empty).Harmless ∧ ∃ e, (p.run (c .empty) ()).error = some e ∧ e.cause.Undefined := by
  intro c env source
  have hsucceeds : (compile source).map (fun p => (p.run (c env) ()).error) = .ok none := by
    decide +kernel
  have hfails : (compile source).map (fun p => (p.run (c .empty) ()).error.isSome) =
      .ok true := by
    decide +kernel
  have hharmless : (c .empty).Harmless := by
    constructor
    · intro point e
      cases point <;> simp [Registry.Throws, c, Registry.empty]
    · intro held text
      rfl
  cases hcompile : compile source with
  | error e =>
      rw [hcompile] at hsucceeds
      cases hsucceeds
  | ok p =>
      rw [hcompile] at hsucceeds hfails
      have hnone : (p.run (c env) ()).error = none := Except.ok.inj hsucceeds
      have hsome : (p.run (c .empty) ()).error.isSome = true := Except.ok.inj hfails
      rcases Option.isSome_iff_exists.mp hsome with ⟨e, he⟩
      rcases compiled_run_sound (c env) () hcompile with ⟨_, hends, _⟩
      rcases compiled_run_sound (c .empty) () hcompile with ⟨_, _, _, hundefined⟩
      exact ⟨p, rfl, ⟨hnone, hends hnone⟩, hharmless, e, he, hundefined hharmless e he⟩

end Program

end Stencil
