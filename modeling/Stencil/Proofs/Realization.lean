import Stencil.Document.Evaluation
import Stencil.Proofs.Effects

/-!
# Instructions that realize an evaluation

An evaluation says what is written and where writing stops.  Instructions realize
it if, without hooks and with a sink that accepts everything, they write that text
and then end, or fail at that place.  What is written goes into the innermost
capture if one is open, so that the text of a failed capture is lost.

The rules below follow the instructions of the machine: a step, a macro call, a
capture, an iteration.  Each rule says which stack of scopes the instructions
begin with and which they leave.
-/

namespace Stencil

/-! ## Evaluations in sequence -/

namespace Evaluation

theorem nothing_andThen (e : Evaluation) : nothing.andThen e = e := by
  simp [nothing, text, andThen]

theorem andThen_nothing (e : Evaluation) : e.andThen nothing = e := by
  rcases e with ⟨output, stopped⟩
  cases stopped with
  | none => simp [nothing, text, andThen]
  | some u => rfl

theorem captured_andThen (e after : Evaluation) (next : String → Evaluation) :
    (e.captured next).andThen after = e.captured fun text => (next text).andThen after := by
  rcases e with ⟨output, stopped⟩
  cases stopped with
  | none => rfl
  | some u => rfl

/-- One evaluation after another for the items of a list, the first being number
`index`. -/
def forItems (each : Nat → String → Evaluation) : Nat → List String → Evaluation
  | _, [] => nothing
  | index, item :: items => (each index item).andThen (forItems each (index + 1) items)

theorem forItems_text (index : Nat) (items : List String) :
    forItems (fun _ item => text item) index items = text (String.join items) := by
  induction items generalizing index with
  | nil => rfl
  | cons item items ih =>
      rw [forItems, ih]
      simp [andThen, text]

end Evaluation

namespace Undefined

def cause : Undefined → Cause
  | scalar name _ => .undefinedVariable name
  | array name _ => .undefinedArray name

def span : Undefined → Span
  | scalar _ span => span
  | array _ span => span

/-- The error that a run fails with at an undefined name. -/
def error (u : Undefined) : RuntimeError :=
  ⟨u.cause, some u.span, none⟩

end Undefined

/-! ## What has been written -/

/-- The text that reached the sink, and the open captures, innermost first. -/
structure Surface where
  written : String
  captures : List String

namespace Surface

def add (text : String) : Surface → Surface
  | ⟨written, []⟩ => ⟨written ++ text, []⟩
  | ⟨written, innermost :: outer⟩ => ⟨written, (innermost ++ text) :: outer⟩

theorem add_empty (s : Surface) : s.add "" = s := by
  rcases s with ⟨written, captures⟩
  cases captures with
  | nil => simp [add]
  | cons innermost outer => simp [add]

theorem add_append (s : Surface) (first second : String) :
    s.add (first ++ second) = (s.add first).add second := by
  rcases s with ⟨written, captures⟩
  cases captures with
  | nil => simp [add, String.append_assoc]
  | cons innermost outer => simp [add, String.append_assoc]

end Surface

namespace State

variable {σ : Type}

def surface (s : State σ) : Surface :=
  ⟨String.join s.host.written.toList, s.captures⟩

end State

namespace Setting

variable {σ : Type}

/-- No hooks, and a sink that accepts everything. -/
structure Plain (c : Setting σ) : Prop where
  noHooks : c.registry = Registry.empty
  accepts : ∀ held text, c.sink held text = none

end Setting

/-! ## Realization -/

namespace Evaluation

variable {σ : Type}

/-- A result that began in state `s` is what the evaluation says.  A run that ends
leaves the scopes `frames`. -/
def Describes (e : Evaluation) (frames : ScopeStack) (s : State σ) :
    EStateM.Result Fault (State σ) Unit → Prop
  | .ok _ s' => e.stopped = none ∧ s'.frames = frames ∧ s'.surface = s.surface.add e.output
  | .error fault s' => ∃ u, e.stopped = some u ∧ fault = .error u.error ∧
      s'.surface.written = (s.surface.add e.output).written

theorem describes_andThen {first second : Evaluation} {frames : ScopeStack} {s s' : State σ}
    {r : EStateM.Result Fault (State σ) Unit} (hgoes : first.stopped = none)
    (hsurface : s'.surface = s.surface.add first.output) (h : second.Describes frames s' r) :
    (first.andThen second).Describes frames s r := by
  have heq : first.andThen second = ⟨first.output ++ second.output, second.stopped⟩ := by
    simp [andThen, hgoes]
  rw [heq]
  cases r with
  | ok a s'' =>
      rcases h with ⟨hstopped, hframes, hwritten⟩
      refine ⟨hstopped, hframes, ?_⟩
      rw [hwritten, hsurface, Surface.add_append]
  | error fault s'' =>
      rcases h with ⟨u, hstopped, hfault, hwritten⟩
      refine ⟨u, hstopped, hfault, ?_⟩
      rw [hwritten, hsurface, Surface.add_append]

end Evaluation

namespace Exec

variable {σ : Type} {c : Setting σ} {F G H : ScopeStack}

/-- From the scopes `F`, a computation realizes an evaluation and leaves `G`. -/
def Realizes (F G : ScopeStack) (m : Exec σ Unit) (e : Evaluation) : Prop :=
  ∀ s, s.frames = F → e.Describes G s (m s)

theorem realizes_seq {m₁ m₂ : Exec σ Unit} {e₁ e₂ : Evaluation}
    (h₁ : Realizes F G m₁ e₁) (h₂ : Realizes G H m₂ e₂) :
    Realizes F H (do m₁; m₂) (e₁.andThen e₂) := by
  intro s hs
  have hfirst := h₁ s hs
  cases hr : m₁ s with
  | ok a s' =>
      rw [hr] at hfirst
      rw [bind_of_ok hr]
      rcases hfirst with ⟨hgoes, hframes, hsurface⟩
      exact Evaluation.describes_andThen hgoes hsurface (h₂ s' hframes)
  | error fault s' =>
      rw [hr] at hfirst
      rw [bind_of_error hr]
      rcases hfirst with ⟨u, hstopped, hfault, hwritten⟩
      have heq : e₁.andThen e₂ = e₁ := by
        simp [Evaluation.andThen, hstopped]
      rw [heq]
      exact ⟨u, hstopped, hfault, hwritten⟩

/-- A step that writes nothing and does not fail. -/
theorem realizes_quiet {m : Exec σ Unit}
    (h : ∀ s, s.frames = F → ∃ s', m s = .ok () s' ∧ s'.frames = G ∧ s'.surface = s.surface) :
    Realizes F G m .nothing := by
  intro s hs
  rcases h s hs with ⟨s', hm, hframes, hsurface⟩
  rw [hm]
  refine ⟨rfl, hframes, ?_⟩
  rw [hsurface]
  exact (Surface.add_empty _).symm

theorem realizes_pure : Realizes F F (pure () : Exec σ Unit) .nothing :=
  realizes_quiet fun s hs => ⟨s, rfl, hs, rfl⟩

theorem realizes_after_quiet {m₁ m₂ : Exec σ Unit} {e : Evaluation}
    (h₁ : Realizes F G m₁ .nothing) (h₂ : Realizes G H m₂ e) :
    Realizes F H (do m₁; m₂) e := by
  have h := realizes_seq h₁ h₂
  rwa [Evaluation.nothing_andThen] at h

theorem realizes_fail (u : Undefined) :
    Realizes F G (fail u.cause (some u.span) : Exec σ Unit) (.stop u) := by
  intro s _
  refine ⟨u, rfl, rfl, ?_⟩
  change s.surface.written = (s.surface.add "").written
  rw [Surface.add_empty]

/-! ### Hooks and steps -/

theorem realizes_emit (hc : c.Plain) (event : Event) : Realizes F F (emit c event) .nothing := by
  apply realizes_quiet
  intro s hs
  refine ⟨s, ?_, hs, rfl⟩
  rw [emit, hc.noHooks]
  rfl

theorem realizes_logStep (hc : c.Plain) (i : Instruction) :
    Realizes F F (logStep c i) .nothing := by
  apply realizes_quiet
  intro s hs
  refine ⟨s.logged c.verbose i, ?_, hs, rfl⟩
  rw [logStep_apply, hc.noHooks]
  rfl

/-! ### Writing -/

theorem realizes_write (hc : c.Plain) (text : String) :
    Realizes F F (write c text) (.text text) := by
  intro s hs
  cases hcaptures : s.captures with
  | cons innermost outer =>
      rw [write_captured c text hcaptures]
      refine ⟨rfl, hs, ?_⟩
      simp [State.surface, hcaptures, Surface.add, Evaluation.text]
  | nil =>
      have hfilter : hooks .outputFilter (c.registry.filterOutput c.machine text) s =
          .ok text s := by
        rw [hc.noHooks]
        rfl
      rw [write_uncaptured c text hcaptures, bind_of_ok hfilter,
        deliver_accepted (hc.accepts _ _)]
      refine ⟨rfl, hs, ?_⟩
      simp [State.surface, hcaptures, Surface.add, Host.write, Evaluation.text]

/-- A name means what it is bound to, or else a global variable. -/
theorem realizes_emitVar (hc : c.Plain) (call : Option Span → String → Nat → Exec σ Unit)
    {bound : Bindings} (hbound : ∀ name, ScopeStack.lookup name F = List.lookup name bound)
    (name : String) (span : Span) :
    Realizes F F (perform c call (some span) (.emitVar name))
      (c.environment.evaluate bound name span) := by
  intro s hs
  rw [perform]
  rw [Environment.evaluate, ← hbound, ← hs]
  cases hvalue : (ScopeStack.lookup name s.frames <|> c.environment.findVariable name) with
  | some value =>
      rw [bind_of_ok (lookup_found hvalue (some span))]
      exact realizes_write hc value s rfl
  | none =>
      rw [bind_of_error (lookup_missing hvalue (some span))]
      exact realizes_fail (F := s.frames) (.scalar name span) s rfl

/-! ### Captures -/

theorem realizes_capture {value : Exec σ Unit} {after : String → Exec σ Unit}
    {e : Evaluation} {next : String → Evaluation} (hvalue : Realizes F G value e)
    (hafter : ∀ text, Realizes G H (after text) (next text)) :
    Realizes F H (do beginCapture; value; after (← endCapture)) (e.captured next) := by
  intro s hs
  rw [bind_of_ok (beginCapture_apply s)]
  have hdescribed := hvalue { s with captures := "" :: s.captures } hs
  cases hr : value { s with captures := "" :: s.captures } with
  | error fault s' =>
      rw [hr] at hdescribed
      rcases hdescribed with ⟨u, hstopped, hfault, hwritten⟩
      rw [bind_of_error hr]
      have heq : e.captured next = .stop u := by
        simp [Evaluation.captured, hstopped]
      rw [heq]
      refine ⟨u, rfl, hfault, ?_⟩
      change s'.surface.written = (s.surface.add "").written
      rw [hwritten, Surface.add_empty]
      rfl
  | ok a s' =>
      rw [hr] at hdescribed
      rcases hdescribed with ⟨hgoes, hframes, hsurface⟩
      have hcaptures : s'.captures = ("" ++ e.output) :: s.captures :=
        congrArg Surface.captures hsurface
      have hwritten : s'.surface.written = s.surface.written := by
        rw [hsurface]
        rfl
      have heq : e.captured next = next e.output := by
        simp [Evaluation.captured, hgoes]
      rw [bind_of_ok hr, bind_of_ok (endCapture_open hcaptures), String.empty_append, heq]
      have hlast := hafter e.output { s' with captures := s.captures } hframes
      have hrestored : ({ s' with captures := s.captures } : State σ).surface = s.surface := by
        change Surface.mk s'.surface.written s.captures = s.surface
        rw [hwritten]
        rfl
      have hstart : ({ s' with captures := s.captures } : State σ).surface =
          s.surface.add Evaluation.nothing.output := by
        rw [hrestored]
        exact (Surface.add_empty s.surface).symm
      have hdone := @Evaluation.describes_andThen _ .nothing _ _ _ _ _ rfl hstart hlast
      rwa [Evaluation.nothing_andThen] at hdone

/-! ### Scopes -/

theorem realizes_pushFrame {name : String} {kind : FrameKind} {span : Option Span}
    {values : Bindings} {after : Exec σ Unit} {e : Evaluation}
    (h : ∀ id, Realizes (⟨name, kind, id, span, values⟩ :: F) G after e) :
    Realizes F G (do pushFrame name kind span values; after) e := by
  intro s hs
  rw [bind_of_ok (pushFrame_apply name kind span values s)]
  subst hs
  exact h _ (s.opened name kind span values) rfl

theorem realizes_popFrame (frame : Frame) :
    Realizes (frame :: F) F (popFrame : Exec σ Unit) .nothing := by
  apply realizes_quiet
  intro s hs
  exact ⟨_, popFrame_open hs, rfl, rfl⟩

theorem realizes_bind (frame : Frame) (name value : String) :
    Realizes (frame :: F) ({ frame with values := Entries.set name value frame.values } :: F)
      (bind name value : Exec σ Unit) .nothing := by
  apply realizes_quiet
  intro s hs
  exact ⟨_, bind_open hs name value, rfl, rfl⟩

/-- Each item has a frame of its own, in which its number and itself are bound. -/
theorem realizes_iterate {array : String} {span : Option Span} {body : Exec σ Unit}
    {each : Nat → String → Evaluation}
    (hbody : ∀ name id index item,
      Realizes (.ofItem span name id index item :: F) (.ofItem span name id index item :: F)
        body (each index item))
    (index : Nat) (items : List String) :
    Realizes F F (iterate array span body index items)
      (Evaluation.forItems each index items) := by
  induction items generalizing index with
  | nil => exact realizes_pure
  | cons item items ih =>
      rw [iterate, Evaluation.forItems]
      apply realizes_pushFrame
      intro id
      apply realizes_seq (hbody _ id index item)
      exact realizes_after_quiet (realizes_popFrame _) (ih (index + 1))

/-! ### Code -/

variable {call : Option Span → String → Nat → Exec σ Unit}

theorem runCode_append (c : Setting σ) (call : Option Span → String → Nat → Exec σ Unit)
    (first second : Code) :
    runCode c call (first.append second) = (do runCode c call first; runCode c call second) := by
  induction first with
  | done => rfl
  | step action span rest ih =>
      simp only [Code.append, runCode, ih, bind_assoc]
  | loop opening array body closing rest _ ih =>
      simp only [Code.append, runCode, ih]
      cases c.environment.findArray array with
      | none => simp only [bind_assoc]
      | some items => simp only [bind_assoc]

theorem realizes_append {first second : Code} {e e' : Evaluation}
    (hfirst : Realizes F G (runCode c call first) e)
    (hsecond : Realizes G H (runCode c call second) e') :
    Realizes F H (runCode c call (first.append second)) (e.andThen e') := by
  rw [runCode_append]
  exact realizes_seq hfirst hsecond

theorem realizes_step (hc : c.Plain) {action : Action} {span : Option Span} {rest : Code}
    {e e' : Evaluation} (haction : Realizes F G (perform c call span action) e)
    (hrest : Realizes G H (runCode c call rest) e') :
    Realizes F H (runCode c call (.step action span rest)) (e.andThen e') := by
  rw [runCode]
  apply realizes_after_quiet (realizes_logStep hc _)
  exact realizes_seq haction hrest

theorem realizes_quiet_step (hc : c.Plain) {action : Action} {span : Option Span}
    {rest : Code} {e : Evaluation}
    (haction : Realizes F G (perform c call span action) .nothing)
    (hrest : Realizes G H (runCode c call rest) e) :
    Realizes F H (runCode c call (.step action span rest)) e := by
  have h := realizes_step hc haction hrest
  rwa [Evaluation.nothing_andThen] at h

/-- A captured value is bound in the innermost frame. -/
theorem realizes_binding (hc : c.Plain) {frame : Frame} {value rest : Code}
    {name : String} {opening closing : Option Span} {e : Evaluation}
    {next : String → Evaluation}
    (hvalue : Realizes (frame :: F) (frame :: F) (runCode c call value) e)
    (hrest : ∀ text, Realizes
      ({ frame with values := Entries.set name text frame.values } :: F) H
      (runCode c call rest) (next text)) :
    Realizes (frame :: F) H
      (runCode c call
        (.step .beginCapture opening (value.append (.step (.endCapture name) closing rest))))
      (e.captured next) := by
  rw [runCode, runCode_append, runCode]
  apply realizes_after_quiet (realizes_logStep hc _)
  have hlogged : Realizes (frame :: F) (frame :: F)
      (do runCode c call value; logStep c (.of (.endCapture name) closing)) e := by
    have h := realizes_seq hvalue (realizes_logStep hc (.of (.endCapture name) closing))
    rwa [Evaluation.andThen_nothing] at h
  have h := realizes_capture hlogged
    (fun text => realizes_after_quiet (realizes_bind frame name text) (hrest text))
  simpa only [perform, bind_assoc] using h

theorem realizes_loop (hc : c.Plain) {array : String} {opening : Span}
    {closing : Option Span} {body rest : Code} {items : List String}
    {each : Nat → String → Evaluation} {e : Evaluation}
    (hitems : c.environment.findArray array = some items)
    (hbody : ∀ name id index item,
      Realizes (.ofItem (some opening) name id index item :: F)
        (.ofItem (some opening) name id index item :: F) (runCode c call body)
        (each index item))
    (hrest : Realizes F G (runCode c call rest) e) :
    Realizes F G (runCode c call (.loop (some opening) array body closing rest))
      ((Evaluation.forItems each 0 items).andThen e) := by
  rw [runCode_loop_of_some _ _ _ _ _ hitems]
  apply realizes_after_quiet (realizes_logStep hc _)
  apply realizes_after_quiet (realizes_emit hc _)
  apply realizes_seq (realizes_iterate hbody 0 items)
  exact realizes_after_quiet (realizes_logStep hc _) hrest

theorem realizes_missing_loop (hc : c.Plain) {array : String} {opening : Span}
    {closing : Option Span} {body rest : Code}
    (hitems : c.environment.findArray array = none) :
    Realizes F G (runCode c call (.loop (some opening) array body closing rest))
      (.stop (.array array opening)) := by
  rw [runCode_loop_of_none _ _ _ _ _ hitems]
  apply realizes_after_quiet (realizes_logStep hc _)
  exact realizes_fail (.array array opening)

/-! ### Macro calls -/

theorem realizes_call (hc : c.Plain) {macros : MacroTable} {depth : Nat} {name : String}
    {block : Nat} {opening closing : Option Span} {rest : Code} {m : Macro}
    {pattern e : Evaluation} {body : String → Evaluation}
    (hm : macros.get? block name = some m)
    (hpattern : Realizes F F (runFragment c (callMacro c macros depth) m.pattern) pattern)
    (hbody : ∀ text id,
      Realizes (.ofCall opening m.name id text :: F) (.ofCall opening m.name id text :: F)
        (runFragment c (callMacro c macros depth) m.body) (body text))
    (hrest : Realizes F G (runCode c (callMacro c macros (depth + 1)) rest) e) :
    Realizes F G
      (runCode c (callMacro c macros (depth + 1))
        (.step (.beginMacroCall name block) opening (.step .endMacroCall closing rest)))
      ((pattern.captured body).andThen e) := by
  rw [runCode, runCode]
  apply realizes_after_quiet (realizes_logStep hc _)
  rw [Evaluation.captured_andThen]
  have h := realizes_capture hpattern (fun text =>
    realizes_after_quiet (realizes_emit hc (.macroCall ⟨m.name, m.block, opening, text⟩))
      (realizes_pushFrame fun id =>
        realizes_seq (hbody text id)
          (realizes_after_quiet (realizes_logStep hc (.of .endMacroCall closing))
            (realizes_after_quiet (realizes_popFrame _) hrest))))
  simpa only [perform, callMacro, hm, bind_assoc] using h

end Exec

end Stencil
