import Mathlib.Data.List.Forall2
import Stencil.Proofs.Effects
import Stencil.Proofs.Groups

/-!
# Macros under other names

A program whose macros are renamed, in the table and where they are called, runs as it did
before.  A name has no part in a run but to find a macro: it is shown in the log and in the
names of frames, and listeners are told of it.  So two such runs keep to each other as long
as the listeners take no notice of names and of the table.
-/

namespace Stencil

/-- The new names of macros, by block. -/
abbrev Renaming := Nat → String → String

/-- Every macro keeps its name. -/
def Renaming.none : Renaming := fun _ name => name

/-! ## What is renamed -/

section Definitions

variable (ρ : Renaming)

def Action.rename : Action → Action
  | .beginMacroCall name block => .beginMacroCall (ρ block name) block
  | action => action

def Operation.rename : Operation → Operation
  | .act action => .act (action.rename ρ)
  | operation => operation

def Instruction.rename (i : Instruction) : Instruction :=
  ⟨i.operation.rename ρ, i.span⟩

def Code.rename : Code → Code
  | .done => .done
  | .step action span rest => .step (action.rename ρ) span (rename rest)
  | .loop opening array body closing rest =>
      .loop opening array (rename body) closing (rename rest)

def Macro.rename (m : Macro) : Macro :=
  ⟨ρ m.block m.name, m.block, m.span, m.pattern.map (Instruction.rename ρ),
    m.body.map (Instruction.rename ρ)⟩

def LogEntry.rename (entry : LogEntry) : LogEntry :=
  { entry with instruction := entry.instruction.rename ρ }

def MacroCall.rename (call : MacroCall) : MacroCall :=
  { call with name := ρ call.block call.name }

end Definitions

variable {ρ : Renaming}

theorem Instruction.opcode_rename (i : Instruction) : (i.rename ρ).opcode = i.opcode := by
  rcases i with ⟨operation, span⟩
  cases operation with
  | act action => cases action <;> rfl
  | beginArrayIter array => rfl
  | endArrayIter => rfl

theorem Instruction.rename_none (i : Instruction) : i.rename .none = i := by
  rcases i with ⟨operation, span⟩
  cases operation with
  | act action => cases action <;> rfl
  | beginArrayIter array => rfl
  | endArrayIter => rfl

theorem Instruction.map_rename_none (is : List Instruction) : is.map (rename .none) = is := by
  rw [List.map_congr_left fun i _ => i.rename_none, List.map_id']

theorem Macro.rename_none (m : Macro) : m.rename .none = m := by
  rw [rename, Instruction.map_rename_none, Instruction.map_rename_none]
  rfl

theorem LogEntry.rename_none (entry : LogEntry) : entry.rename .none = entry := by
  rw [rename, Instruction.rename_none]

/-! ### Code -/

namespace Code

def Suffix.rename (ρ : Renaming) : Suffix → Suffix
  | .closed code pending =>
      .closed (code.rename ρ) (pending.map fun waiting => (waiting.1, waiting.2.rename ρ))
  | .unclosed lastOpen pending => .unclosed lastOpen pending

theorem Suffix.prepend_rename (i : Instruction) (suffix : Suffix) :
    (suffix.rename ρ).prepend (i.rename ρ) = (suffix.prepend i).rename ρ := by
  rcases i with ⟨operation, span⟩
  cases suffix with
  | closed code pending =>
      cases operation with
      | act action => rfl
      | endArrayIter => rfl
      | beginArrayIter array =>
          cases pending with
          | nil => rfl
          | cons waiting pending => rfl
  | unclosed lastOpen pending =>
      cases operation with
      | act action => rfl
      | endArrayIter => rfl
      | beginArrayIter array => rfl

theorem suffix_rename (is : List Instruction) :
    suffix (is.map (Instruction.rename ρ)) = (suffix is).rename ρ := by
  induction is with
  | nil => rfl
  | cons i is ih =>
      change Suffix.prepend (i.rename ρ) (suffix (is.map (Instruction.rename ρ))) =
        (Suffix.prepend i (suffix is)).rename ρ
      rw [ih, Suffix.prepend_rename]

/-- Renaming does not touch how iterations are matched. -/
theorem ofInstructions_rename (is : List Instruction) :
    ofInstructions (is.map (Instruction.rename ρ)) = (ofInstructions is).map (rename ρ) := by
  rw [ofInstructions, ofInstructions, suffix_rename]
  cases suffix is with
  | closed code pending =>
      cases pending with
      | nil => rfl
      | cons waiting pending => rfl
  | unclosed lastOpen pending =>
      cases pending with
      | nil => rfl
      | cons span pending => rfl

end Code

/-! ## Hooks that take no notice -/

variable {σ : Type} {α β : Type}

namespace Host

/-- The hosts differ in their journals only. -/
structure Same (host host' : Host σ) : Prop where
  world : host'.world = host.world
  written : host'.written = host.written

/-- Calls end with the same value or error, and leave the same world. -/
inductive Ends : EStateM.Result HookError (Host σ) α → EStateM.Result HookError (Host σ) α →
    Prop where
  | ok (a : α) {host host' : Host σ} (h : host.Same host') : Ends (.ok a host) (.ok a host')
  | error (e : HookError) {host host' : Host σ} (h : host.Same host') :
      Ends (.error e host) (.error e host')

end Host

namespace HostM

/-- From hosts that differ in their journals only, both come to the same. -/
def Mirrors (m m' : HostM σ α) : Prop :=
  ∀ host host', host.Same host' → Host.Ends (m host) (m' host')

theorem mirrors_pure (a : α) : Mirrors (pure a : HostM σ α) (pure a) :=
  fun _ _ h => .ok a h

theorem mirrors_throw (e : HookError) : Mirrors (throw e : HostM σ α) (throw e) :=
  fun _ _ h => .error e h

theorem mirrors_seq {m m' : HostM σ α} {next next' : α → HostM σ β} (hm : Mirrors m m')
    (hnext : ∀ a, Mirrors (next a) (next' a)) : Mirrors (m >>= next) (m' >>= next') := by
  intro host host' h
  change Host.Ends (EStateM.bind m next host) (EStateM.bind m' next' host')
  have hends := hm host host' h
  rw [EStateM.bind, EStateM.bind]
  generalize m host = r at hends
  generalize m' host' = r' at hends
  cases hends with
  | ok a hsame => exact hnext a _ _ hsame
  | error e hsame => exact .error e hsame

theorem mirrors_forM {γ : Type} {f f' : γ → HostM σ Unit} {as : List γ}
    (h : ∀ a ∈ as, Mirrors (f a) (f' a)) : Mirrors (as.forM f) (as.forM f') := by
  induction as with
  | nil => exact mirrors_pure ()
  | cons a as ih =>
      apply mirrors_seq (h a List.mem_cons_self)
      intro _
      exact ih fun b hb => h b (List.mem_cons_of_mem _ hb)

theorem mirrors_call {hook : Hook σ α β} {machine : String} {a a' : α}
    (h : hook.handler machine a' = hook.handler machine a) (record record' : Origin → Record) :
    Mirrors (hook.call machine record a) (hook.call machine record' a') := by
  intro host host' hsame
  have hworld : (host'.note (record' hook.origin)).world = (host.note (record hook.origin)).world :=
    hsame.world
  simp only [Hook.call, h, hworld]
  split
  · exact .ok _ ⟨rfl, hsame.written⟩
  · exact .error _ ⟨rfl, hsame.written⟩

end HostM

namespace Registry

/-- The listeners do the same at either event. -/
def Overlooks (r : Registry σ) (machine : String) (event event' : Event) : Prop :=
  event'.kind = event.kind ∧
    ∀ hook ∈ r.listeners event.kind, hook.handler machine event' = hook.handler machine event

theorem overlooks_self (r : Registry σ) (machine : String) (event : Event) :
    r.Overlooks machine event event :=
  ⟨rfl, fun _ _ => rfl⟩

variable {r : Registry σ} {machine : String}

theorem mirrors_emit {event event' : Event} (h : r.Overlooks machine event event') :
    HostM.Mirrors (r.emit machine event) (r.emit machine event') := by
  rw [emit, emit, h.1]
  exact HostM.mirrors_forM fun hook hhook => HostM.mirrors_call (h.2 hook hhook) _ _

theorem mirrors_afterStep (r : Registry σ) (machine : String) (context : StepContext) :
    HostM.Mirrors (r.afterStep machine context) (r.afterStep machine context) := by
  apply HostM.mirrors_forM
  intro rule _
  split
  · exact HostM.mirrors_call rfl _ _
  · exact HostM.mirrors_pure ()

theorem mirrors_filterWith (machine : String) (hooks : List (Hook σ String Filtered))
    (text : String) :
    HostM.Mirrors (filterWith machine hooks text) (filterWith machine hooks text) := by
  induction hooks generalizing text with
  | nil => exact HostM.mirrors_pure text
  | cons hook hooks ih =>
      rw [filterWith]
      apply HostM.mirrors_seq (HostM.mirrors_call rfl _ _)
      intro filtered
      cases filtered with
      | text given => exact ih given
      | foreign typeName => exact HostM.mirrors_throw _

end Registry

/-! ## States -/

/-- The frames differ in the name of the macro that was called. -/
structure Frame.Renamed (ρ : Renaming) (frame frame' : Frame) : Prop where
  name : frame'.name = frame.name ∨
    ∃ block name, frame.name = "?" ++ name ∧ frame'.name = "?" ++ ρ block name
  kind : frame'.kind = frame.kind
  id : frame'.id = frame.id
  span : frame'.span = frame.span
  values : frame'.values = frame.values

/-- The states differ in names of macros and in their journals only. -/
structure State.Renamed (ρ : Renaming) (s s' : State σ) : Prop where
  frames : List.Forall₂ (Frame.Renamed ρ) s.frames s'.frames
  captures : s'.captures = s.captures
  frameCount : s'.frameCount = s.frameCount
  log : s'.log = s.log.map (LogEntry.rename ρ)
  host : s.host.Same s'.host

theorem Frame.Renamed.eq_of_none {frame frame' : Frame} (h : frame.Renamed .none frame') :
    frame' = frame := by
  rcases frame with ⟨name, kind, id, span, values⟩
  rcases frame' with ⟨name', kind', id', span', values'⟩
  rcases h with ⟨hname, hkind, hid, hspan, hvalues⟩
  have heq : name' = name := by
    rcases hname with heq | ⟨block, target, hname, hname'⟩
    · exact heq
    · exact hname'.trans hname.symm
  cases heq
  cases hkind
  cases hid
  cases hspan
  cases hvalues
  rfl

namespace ScopeStack

variable {stack stack' : ScopeStack}

theorem lookup_renamed (h : List.Forall₂ (Frame.Renamed ρ) stack stack') (name : String) :
    lookup name stack' = lookup name stack := by
  induction h with
  | nil => rfl
  | cons hframe _ ih => rw [lookup, lookup, hframe.values, ih]

theorem visible_renamed (h : List.Forall₂ (Frame.Renamed ρ) stack stack') :
    visible stack' = visible stack := by
  induction h with
  | nil => rfl
  | cons hframe _ ih => rw [visible, visible, hframe.values, ih]

end ScopeStack

namespace State.Renamed

variable {s s' : State σ}

theorem initial (world : σ) : (State.initial world).Renamed ρ (State.initial world) :=
  ⟨.nil, rfl, rfl, Array.map_empty.symm, rfl, rfl⟩

theorem frame (h : s.Renamed ρ s') : s'.frame = s.frame := by
  rw [State.frame, State.frame]
  have hframes := h.frames
  generalize s.frames = frames at hframes
  generalize s'.frames = frames' at hframes
  cases hframes with
  | nil => rfl
  | cons hframe _ => exact hframe.id

theorem logSize (h : s.Renamed ρ s') : s'.log.size = s.log.size := by
  rw [h.log, Array.size_map]

theorem lastEntry (h : s.Renamed ρ s') :
    s'.log.back? = s.log.back?.map (LogEntry.rename ρ) := by
  rw [h.log, Array.back?_map]

theorem lastSpan (h : s.Renamed ρ s') : s'.lastSpan = s.lastSpan := by
  rw [State.lastSpan, State.lastSpan, h.lastEntry]
  cases s.log.back? with
  | none => rfl
  | some entry => rfl

theorem lastIndex (h : s.Renamed ρ s') : s'.lastIndex = s.lastIndex := by
  rw [State.lastIndex, State.lastIndex, h.lastEntry]
  cases s.log.back? with
  | none => rfl
  | some entry => rfl

theorem context (h : s.Renamed ρ s') (i : Instruction) :
    s'.context (i.rename ρ) = s.context i := by
  rw [State.context, State.context, h.logSize, h.frame, Instruction.opcode_rename]
  rfl

theorem logged (h : s.Renamed ρ s') (verbose : Bool) (i : Instruction) :
    (s.logged verbose i).Renamed ρ (s'.logged verbose (i.rename ρ)) where
  frames := h.frames
  captures := h.captures
  frameCount := h.frameCount
  log := by
    simp only [State.logged, Array.map_push, h.log, Array.size_map, h.frame,
      ScopeStack.visible_renamed h.frames]
    rfl
  host := ⟨h.host.world, h.host.written⟩

theorem opened (h : s.Renamed ρ s') {name name' : String}
    (hname : name' = name ∨ ∃ block target, name = "?" ++ target ∧ name' = "?" ++ ρ block target)
    (kind : FrameKind) (span : Option Span) (values : Bindings) :
    (s.opened name kind span values).Renamed ρ (s'.opened name' kind span values) where
  frames := .cons ⟨hname, rfl, by rw [h.frameCount], rfl, rfl⟩ h.frames
  captures := h.captures
  frameCount := congrArg (· + 1) h.frameCount
  log := h.log
  host := ⟨h.host.world, h.host.written⟩

end State.Renamed

/-! ## Computations -/

namespace Exec

/-- Computations end with the same value or fault, in states that are alike. -/
inductive Ends (ρ : Renaming) :
    EStateM.Result Fault (State σ) α → EStateM.Result Fault (State σ) α → Prop where
  | ok (a : α) {s s' : State σ} (h : s.Renamed ρ s') : Ends ρ (.ok a s) (.ok a s')
  | error (fault : Fault) {s s' : State σ} (h : s.Renamed ρ s') :
      Ends ρ (.error fault s) (.error fault s')

/-- From states that are alike, both come to the same. -/
def Mirrors (ρ : Renaming) (m m' : Exec σ α) : Prop :=
  ∀ s s', s.Renamed ρ s' → Ends ρ (m s) (m' s')

variable {c : Setting σ}

theorem mirrors_pure (a : α) : Mirrors ρ (pure a : Exec σ α) (pure a) :=
  fun _ _ h => .ok a h

theorem mirrors_seq {m m' : Exec σ α} {next next' : α → Exec σ β} (hm : Mirrors ρ m m')
    (hnext : ∀ a, Mirrors ρ (next a) (next' a)) : Mirrors ρ (m >>= next) (m' >>= next') := by
  intro s s' h
  change Ends ρ (EStateM.bind m next s) (EStateM.bind m' next' s')
  have hends := hm s s' h
  rw [EStateM.bind, EStateM.bind]
  generalize m s = r at hends
  generalize m' s' = r' at hends
  cases hends with
  | ok a hrenamed => exact hnext a _ _ hrenamed
  | error fault hrenamed => exact .error fault hrenamed

theorem mirrors_fail (cause : Cause) (span : Option Span) :
    Mirrors ρ (fail cause span : Exec σ α) (fail cause span) :=
  fun _ _ h => .error _ h

theorem mirrors_breakDown (b : Breakdown) :
    Mirrors ρ (breakDown b : Exec σ α) (breakDown b) :=
  fun _ _ h => .error _ h

theorem mirrors_hooks (point : HookPoint) {call call' : HostM σ α} (h : HostM.Mirrors call call') :
    Mirrors ρ (hooks point call) (hooks point call') := by
  intro s s' hs
  have hends := h s.host s'.host hs.host
  rw [hooks_apply, hooks_apply, hs.lastSpan]
  generalize call s.host = r at hends
  generalize call' s'.host = r' at hends
  cases hends with
  | ok a hhost => exact .ok a { hs with host := hhost }
  | error e hhost => exact .error _ { hs with host := hhost }

theorem mirrors_emit {event event' : Event}
    (h : c.registry.Overlooks c.machine event event') :
    Mirrors ρ (emit c event) (emit c event') := by
  rw [emit, emit, h.1]
  exact mirrors_hooks _ (Registry.mirrors_emit h)

theorem mirrors_logStep (i : Instruction) :
    Mirrors ρ (logStep c i) (logStep c (i.rename ρ)) := by
  intro s s' h
  rw [logStep_apply, logStep_apply, h.context i]
  exact mirrors_hooks _ (Registry.mirrors_afterStep _ _ _) _ _ (h.logged c.verbose i)

theorem mirrors_deliver (text : String) : Mirrors ρ (deliver c text) (deliver c text) := by
  intro s s' h
  have hwritten := h.host.written
  cases haccepts : c.sink s.host.written text with
  | some reason =>
      have haccepts' : c.sink s'.host.written text = some reason := by rw [hwritten, haccepts]
      rw [deliver_refused haccepts, deliver_refused haccepts']
      exact .error _ h
  | none =>
      have haccepts' : c.sink s'.host.written text = none := by rw [hwritten, haccepts]
      rw [deliver_accepted haccepts, deliver_accepted haccepts']
      have hhost : (s.host.write text).Same (s'.host.write text) :=
        ⟨h.host.world, congrArg (Array.push · text) hwritten⟩
      exact .ok () { h with host := hhost }

theorem mirrors_write (text : String) : Mirrors ρ (write c text) (write c text) := by
  intro s s' h
  cases hcaptures : s.captures with
  | cons innermost outer =>
      rw [write_captured c text hcaptures, write_captured c text (h.captures.trans hcaptures)]
      exact .ok () { h with captures := rfl }
  | nil =>
      rw [write_uncaptured c text hcaptures, write_uncaptured c text (h.captures.trans hcaptures)]
      exact mirrors_seq (mirrors_hooks _ (Registry.mirrors_filterWith _ _ _)) mirrors_deliver _ _ h

theorem mirrors_lookup (name : String) (span : Option Span) :
    Mirrors ρ (lookup c name span) (lookup c name span) := by
  intro s s' h
  have hsame : (ScopeStack.lookup name s'.frames <|> c.environment.findVariable name) =
      (ScopeStack.lookup name s.frames <|> c.environment.findVariable name) := by
    rw [ScopeStack.lookup_renamed h.frames]
  cases hvalue : (ScopeStack.lookup name s.frames <|> c.environment.findVariable name) with
  | none =>
      rw [lookup_missing hvalue, lookup_missing (hsame.trans hvalue)]
      exact .error _ h
  | some value =>
      rw [lookup_found hvalue, lookup_found (hsame.trans hvalue)]
      exact .ok value h

theorem mirrors_beginCapture : Mirrors ρ (beginCapture : Exec σ Unit) beginCapture := by
  intro s s' h
  rw [beginCapture_apply, beginCapture_apply, h.captures]
  exact .ok () { h with captures := rfl }

theorem mirrors_endCapture : Mirrors ρ (endCapture : Exec σ String) endCapture := by
  intro s s' h
  cases hcaptures : s.captures with
  | nil =>
      rw [endCapture_none hcaptures, endCapture_none (h.captures.trans hcaptures)]
      exact .error _ h
  | cons text outer =>
      rw [endCapture_open hcaptures, endCapture_open (h.captures.trans hcaptures)]
      exact .ok text { h with captures := rfl }

theorem mirrors_bind (name value : String) :
    Mirrors ρ (bind name value : Exec σ Unit) (bind name value) := by
  intro s s' h
  have hframes := h.frames
  cases hs : s.frames with
  | nil =>
      rw [hs, List.forall₂_nil_left_iff] at hframes
      rw [bind_none hs, bind_none hframes]
      exact .error _ h
  | cons frame outer =>
      rw [hs] at hframes
      rcases List.forall₂_cons_left_iff.mp hframes with ⟨frame', outer', hframe, houter, hs'⟩
      rw [bind_open hs, bind_open hs', hframe.values]
      have hbound : List.Forall₂ (Frame.Renamed ρ)
          ({ frame with values := Entries.set name value frame.values } :: outer)
          ({ frame' with values := Entries.set name value frame.values } :: outer') :=
        .cons { hframe with values := rfl } houter
      exact .ok () { h with frames := hbound }

theorem mirrors_popFrame : Mirrors ρ (popFrame : Exec σ Unit) popFrame := by
  intro s s' h
  have hframes := h.frames
  cases hs : s.frames with
  | nil =>
      rw [hs, List.forall₂_nil_left_iff] at hframes
      rw [popFrame_none hs, popFrame_none hframes]
      exact .error _ h
  | cons frame outer =>
      rw [hs] at hframes
      rcases List.forall₂_cons_left_iff.mp hframes with ⟨frame', outer', _, houter, hs'⟩
      rw [popFrame_open hs, popFrame_open hs']
      exact .ok () { h with frames := houter }

theorem mirrors_pushFrame {name name' : String}
    (hname : name' = name ∨ ∃ block target, name = "?" ++ target ∧ name' = "?" ++ ρ block target)
    (kind : FrameKind) (span : Option Span) (values : Bindings) :
    Mirrors ρ (pushFrame name kind span values : Exec σ Unit)
      (pushFrame name' kind span values) := by
  intro s s' h
  rw [pushFrame_apply, pushFrame_apply]
  exact .ok () (h.opened hname kind span values)

theorem mirrors_iterate {body body' : Exec σ Unit} (hbody : Mirrors ρ body body')
    (array : String) (span : Option Span) (index : Nat) (items : List String) :
    Mirrors ρ (iterate array span body index items) (iterate array span body' index items) := by
  induction items generalizing index with
  | nil => exact mirrors_pure ()
  | cons item items ih =>
      rw [iterate, iterate]
      apply mirrors_seq (mirrors_pushFrame (.inl rfl) _ _ _)
      intro _
      apply mirrors_seq hbody
      intro _
      exact mirrors_seq mirrors_popFrame fun _ => ih (index + 1)

end Exec

/-! ## Programs -/

/-- Every macro that is called is in the table. -/
def MacroTable.Knows (macros : MacroTable) (is : List Instruction) : Prop :=
  ∀ i ∈ is, ∀ name block, i.Calls name block → ∃ m, macros.get? block name = some m

namespace Program

/-- Every call that a run can come to finds its macro. -/
structure Closed (p : Program) : Prop where
  instructions : p.macros.Knows p.instructions
  macros : ∀ block name m, p.macros.get? block name = some m →
    p.macros.Knows m.pattern ∧ p.macros.Knows m.body

/-- The second program is the first one with its macros under new names.  The tables may
hold them in another order. -/
structure Renamed (ρ : Renaming) (p p' : Program) : Prop where
  instructions : p'.instructions = p.instructions.map (Instruction.rename ρ)
  size : p'.macros.size = p.macros.size
  macros : ∀ block name m, p.macros.get? block name = some m →
    p'.macros.get? block (ρ block name) = some (m.rename ρ)

end Program

namespace Exec

variable {c : Setting σ} {call call' : Option Span → String → Nat → Exec σ Unit}
  {macros : MacroTable}

theorem mirrors_perform {action : Action} {span : Option Span}
    (hcall : ∀ name block, action = .beginMacroCall name block →
      Mirrors ρ (call span name block) (call' span (ρ block name) block)) :
    Mirrors ρ (perform c call span action) (perform c call' span (action.rename ρ)) := by
  cases action with
  | emitLiteral text => exact mirrors_write text
  | emitVar name => exact mirrors_seq (mirrors_lookup name span) mirrors_write
  | beginMacroCall name block => exact hcall name block rfl
  | endMacroCall => exact mirrors_popFrame
  | pushScope => exact mirrors_pushFrame (.inl rfl) _ _ _
  | popScope => exact mirrors_popFrame
  | beginCapture => exact mirrors_beginCapture
  | endCapture name => exact mirrors_seq mirrors_endCapture (mirrors_bind name)
  | comment text => exact mirrors_pure ()
  | nop => exact mirrors_fail _ _

/-- Code goes the same way as long as the macros that it calls do. -/
theorem mirrors_runCode
    (hcall : ∀ span name block m, macros.get? block name = some m →
      Mirrors ρ (call span name block) (call' span (ρ block name) block))
    {code : Code} (hknows : macros.Knows code.toInstructions) :
    Mirrors ρ (runCode c call code) (runCode c call' (code.rename ρ)) := by
  induction code with
  | done => exact mirrors_pure ()
  | step action span rest ih =>
      rw [Code.rename, runCode, runCode]
      rw [Code.toInstructions, MacroTable.Knows, List.forall_mem_cons] at hknows
      apply mirrors_seq (mirrors_logStep (.of action span))
      intro _
      refine mirrors_seq (mirrors_perform ?_) fun _ => ih hknows.2
      intro name block haction
      rcases hknows.1 name block (congrArg Operation.act haction) with ⟨m, hm⟩
      exact hcall span name block m hm
  | loop opening array body closing rest ihBody ihRest =>
      rw [Code.rename]
      simp only [Code.toInstructions, MacroTable.Knows, List.forall_mem_cons,
        List.forall_mem_append] at hknows
      cases hitems : c.environment.findArray array with
      | none =>
          rw [runCode_loop_of_none _ _ _ _ _ hitems, runCode_loop_of_none _ _ _ _ _ hitems]
          exact mirrors_seq (mirrors_logStep ⟨.beginArrayIter array, opening⟩) fun _ =>
            mirrors_fail _ _
      | some items =>
          rw [runCode_loop_of_some _ _ _ _ _ hitems, runCode_loop_of_some _ _ _ _ _ hitems]
          apply mirrors_seq (mirrors_logStep ⟨.beginArrayIter array, opening⟩)
          intro _
          apply mirrors_seq (mirrors_emit (Registry.overlooks_self _ _ _))
          intro _
          apply mirrors_seq (mirrors_iterate (ihBody hknows.2.1) _ _ _ _)
          intro _
          apply mirrors_seq (mirrors_logStep ⟨.endArrayIter, closing⟩)
          intro _
          exact ihRest hknows.2.2.2

theorem mirrors_fragment
    (hcall : ∀ span name block m, macros.get? block name = some m →
      Mirrors ρ (call span name block) (call' span (ρ block name) block))
    {is : List Instruction} (hknows : macros.Knows is) :
    Mirrors ρ (runFragment c call is)
      (runFragment c call' (is.map (Instruction.rename ρ))) := by
  rw [runFragment, runFragment, Code.ofInstructions_rename]
  cases hcode : Code.ofInstructions is with
  | error fault => exact mirrors_fail _ _
  | ok code =>
      rw [← Code.toInstructions_of_ofInstructions hcode] at hknows
      exact mirrors_runCode hcall hknows

variable {p p' : Program}

/-- A call goes the same way under either name.  The induction is on the calls that may
still be nested. -/
theorem mirrors_callMacro (hrenamed : p.Renamed ρ p') (hclosed : p.Closed)
    (hlisteners : ∀ call : MacroCall,
      c.registry.Overlooks c.machine (.macroCall call) (.macroCall (call.rename ρ)))
    (depth : Nat) (span : Option Span) (name : String) (block : Nat) (m : Macro)
    (hm : p.macros.get? block name = some m) :
    Mirrors ρ (callMacro c p.macros depth span name block)
      (callMacro c p'.macros depth span (ρ block name) block) := by
  induction depth generalizing span name block m with
  | zero => exact mirrors_breakDown _
  | succ depth ih =>
      rw [callMacro, callMacro, hm, hrenamed.macros block name m hm]
      rcases hclosed.macros block name m hm with ⟨hpattern, hbody⟩
      apply mirrors_seq mirrors_beginCapture
      intro _
      apply mirrors_seq (mirrors_fragment ih hpattern)
      intro _
      apply mirrors_seq mirrors_endCapture
      intro text
      apply mirrors_seq (mirrors_emit (hlisteners ⟨m.name, m.block, span, text⟩))
      intro _
      apply mirrors_seq (mirrors_pushFrame (.inr ⟨m.block, m.name, rfl, rfl⟩) _ _ _)
      intro _
      exact mirrors_fragment ih hbody

theorem mirrors_program (hrenamed : p.Renamed ρ p') (hclosed : p.Closed)
    (hstart : c.registry.Overlooks c.machine (.programStart p) (.programStart p'))
    (hlisteners : ∀ call : MacroCall,
      c.registry.Overlooks c.machine (.macroCall call) (.macroCall (call.rename ρ))) :
    Mirrors ρ (program c p) (program c p') := by
  rw [program, program, hrenamed.instructions, callDepth, callDepth, hrenamed.size]
  apply mirrors_seq (mirrors_emit hstart)
  intro _
  apply mirrors_seq
    (mirrors_fragment (mirrors_callMacro hrenamed hclosed hlisteners _) hclosed.instructions)
  intro _
  exact mirrors_emit (Registry.overlooks_self _ _ _)

end Exec

/-! ## Runs -/

/-- The runs come to the same, but for names of macros and for their journals. -/
structure Outcome.Renamed (ρ : Renaming) (o o' : Outcome σ) : Prop where
  error : o'.error = o.error
  state : o.state.Renamed ρ o'.state

/-- The runs differ in their journals only. -/
structure Outcome.Same (o o' : Outcome σ) : Prop where
  error : o'.error = o.error
  frames : o'.state.frames = o.state.frames
  captures : o'.state.captures = o.state.captures
  frameCount : o'.state.frameCount = o.state.frameCount
  log : o'.state.log = o.state.log
  host : o.state.host.Same o'.state.host

theorem Outcome.Renamed.same {o o' : Outcome σ} (h : o.Renamed .none o') : o.Same o' where
  error := h.error
  frames := by
    have hframes : List.Forall₂ Eq o'.state.frames o.state.frames :=
      h.state.frames.flip.imp fun _ _ hframe => hframe.eq_of_none
    rwa [List.forall₂_eq_eq_eq] at hframes
  captures := h.state.captures
  frameCount := h.state.frameCount
  log := by
    have hid : LogEntry.rename .none = id := funext LogEntry.rename_none
    rw [h.state.log, hid, Array.map_id]
  host := h.state.host

theorem Outcome.renamed_failed (c : Setting σ) (fault : Fault) {s s' : State σ}
    (h : s.Renamed ρ s') : (failed c fault s).Renamed ρ (failed c fault s') := by
  have hends := Exec.mirrors_emit (c.registry.overlooks_self c.machine
    (.onError ((fault.toError s.lastSpan).stamp s.lastIndex))) s s' h
  rw [failed, failed, h.lastSpan, h.lastIndex]
  generalize Exec.emit c _ s = r at hends ⊢
  generalize Exec.emit c _ s' = r' at hends ⊢
  cases hends with
  | ok a hstate => exact ⟨rfl, hstate⟩
  | error later hstate =>
      exact ⟨congrArg (fun span => some (later.toError span)) hstate.lastSpan, hstate⟩

/-- A run does not depend on what macros are called, nor on the order of the table, unless a
listener looks at these. -/
theorem Program.run_renamed {p p' : Program} {c : Setting σ} (hrenamed : p.Renamed ρ p')
    (hclosed : p.Closed)
    (hstart : c.registry.Overlooks c.machine (.programStart p) (.programStart p'))
    (hlisteners : ∀ call : MacroCall,
      c.registry.Overlooks c.machine (.macroCall call) (.macroCall (call.rename ρ)))
    (world : σ) : (p.run c world).Renamed ρ (p'.run c world) := by
  rw [run, run]
  have hends := Exec.mirrors_program hrenamed hclosed hstart hlisteners _ _
    (State.Renamed.initial world)
  generalize Exec.program c p (State.initial world) = r at hends
  generalize Exec.program c p' (State.initial world) = r' at hends
  cases hends with
  | ok a hstate => exact ⟨rfl, hstate⟩
  | error fault hstate => exact Outcome.renamed_failed c fault hstate

end Stencil
