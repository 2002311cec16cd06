import Stencil.Machine.Run

/-!
# The effects of the machine, state by state

What each operation of the machine gives, as an equation about the state it is
run in.
-/

namespace Stencil

namespace Frame

/-- The frame of one item of an iteration. -/
def ofItem (span : Option Span) (name : String) (id : FrameId) (index : Nat) (item : String) :
    Frame :=
  ⟨name, .iteration, id, span, [(Binding.index, toString index), (Binding.item, item)]⟩

/-- The frame of the body of a macro. -/
def ofCall (span : Option Span) (name : String) (id : FrameId) (pattern : String) : Frame :=
  ⟨"?" ++ name, .call, id, span, [(Binding.pattern, pattern)]⟩

end Frame

namespace State

variable {σ : Type}

/-- A step that is recorded, before its rules are called. -/
def logged (verbose : Bool) (i : Instruction) (s : State σ) : State σ :=
  { s with
    log := s.log.push
      ⟨s.log.size, s.frame, i, if verbose then some (ScopeStack.visible s.frames) else none⟩
    host := s.host.note (.logged s.log.size) }

/-- What the rules are told of a step. -/
def context (s : State σ) (i : Instruction) : StepContext :=
  ⟨s.log.size, i.opcode, i.span, some s.frame⟩

def opened (name : String) (kind : FrameKind) (span : Option Span) (values : Bindings)
    (s : State σ) : State σ :=
  let frame : Frame := ⟨name, kind, .numbered (s.frameCount + 1), span, values⟩
  { s with
    frameCount := s.frameCount + 1
    frames := frame :: s.frames
    host := s.host.note (.opened frame) }

end State

namespace Exec

variable {σ : Type} {α β : Type}

theorem bind_of_ok {m : Exec σ α} {k : α → Exec σ β} {s s' : State σ} {a : α}
    (h : m s = .ok a s') : (m >>= k) s = k a s' := by
  change EStateM.bind m k s = _
  rw [EStateM.bind, h]

theorem bind_of_error {m : Exec σ α} {k : α → Exec σ β} {s s' : State σ} {fault : Fault}
    (h : m s = .error fault s') : (m >>= k) s = .error fault s' := by
  change EStateM.bind m k s = _
  rw [EStateM.bind, h]

theorem get_apply (s : State σ) : (get : Exec σ (State σ)) s = .ok s s :=
  rfl

theorem hooks_apply (point : HookPoint) (call : HostM σ α) (s : State σ) :
    hooks point call s =
      match call s.host with
      | .ok a host => .ok a { s with host := host }
      | .error e host =>
          .error (.error (ofHookError point s.lastSpan e)) { s with host := host } :=
  rfl

theorem hooks_of_ok {point : HookPoint} {call : HostM σ α} {s : State σ} {a : α}
    {host : Host σ} (h : call s.host = .ok a host) :
    hooks point call s = .ok a { s with host := host } := by
  rw [hooks_apply, h]

theorem hooks_of_error {point : HookPoint} {call : HostM σ α} {s : State σ} {e : HookError}
    {host : Host σ} (h : call s.host = .error e host) :
    hooks point call s =
      .error (.error (ofHookError point s.lastSpan e)) { s with host := host } := by
  rw [hooks_apply, h]

theorem logStep_apply (c : Setting σ) (i : Instruction) (s : State σ) :
    logStep c i s =
      hooks .stepRule (c.registry.afterStep c.machine (s.context i)) (s.logged c.verbose i) :=
  rfl

theorem write_captured (c : Setting σ) (text : String) {s : State σ} {innermost : String}
    {outer : List String} (h : s.captures = innermost :: outer) :
    write c text s = .ok () { s with captures := (innermost ++ text) :: outer } := by
  rcases s with ⟨frames, captures, frameCount, log, host⟩
  cases h
  rfl

theorem write_uncaptured (c : Setting σ) (text : String) {s : State σ} (h : s.captures = []) :
    write c text s =
      (hooks .outputFilter (c.registry.filterOutput c.machine text) >>= deliver c) s := by
  rcases s with ⟨frames, captures, frameCount, log, host⟩
  cases h
  rfl

theorem deliver_accepted {c : Setting σ} {text : String} {s : State σ}
    (h : c.sink s.host.written text = none) :
    deliver c text s = .ok () { s with host := s.host.write text } := by
  rw [deliver, bind_of_ok (get_apply s), h]
  rfl

theorem deliver_refused {c : Setting σ} {text reason : String} {s : State σ}
    (h : c.sink s.host.written text = some reason) :
    deliver c text s = .error (.breakdown (.sinkRefused reason)) s := by
  rw [deliver, bind_of_ok (get_apply s), h]
  rfl

theorem beginCapture_apply (s : State σ) :
    beginCapture s = .ok () { s with captures := "" :: s.captures } :=
  rfl

theorem endCapture_open {s : State σ} {text : String} {outer : List String}
    (h : s.captures = text :: outer) :
    endCapture s = .ok text { s with captures := outer } := by
  rcases s with ⟨frames, captures, frameCount, log, host⟩
  cases h
  rfl

theorem endCapture_none {s : State σ} (h : s.captures = []) :
    endCapture s = .error (.breakdown .noOpenCapture) s := by
  rcases s with ⟨frames, captures, frameCount, log, host⟩
  cases h
  rfl

theorem pushFrame_apply (name : String) (kind : FrameKind) (span : Option Span)
    (values : Bindings) (s : State σ) :
    pushFrame name kind span values s = .ok () (s.opened name kind span values) :=
  rfl

theorem popFrame_open {s : State σ} {frame : Frame} {outer : ScopeStack}
    (h : s.frames = frame :: outer) : popFrame s = .ok () { s with frames := outer } := by
  rcases s with ⟨frames, captures, frameCount, log, host⟩
  cases h
  rfl

theorem popFrame_none {s : State σ} (h : s.frames = []) :
    popFrame s = .error (.error ⟨.internal (.scope .underflow), none, none⟩) s := by
  rcases s with ⟨frames, captures, frameCount, log, host⟩
  cases h
  rfl

theorem bind_open {s : State σ} {frame : Frame} {outer : ScopeStack}
    (h : s.frames = frame :: outer) (name value : String) :
    bind name value s =
      .ok ()
        { s with
          frames := { frame with values := Entries.set name value frame.values } :: outer } := by
  rcases s with ⟨frames, captures, frameCount, log, host⟩
  cases h
  rfl

theorem bind_none {s : State σ} (h : s.frames = []) (name value : String) :
    bind name value s =
      .error (.error ⟨.internal (.scope (.bindOutside name)), none, none⟩) s := by
  rcases s with ⟨frames, captures, frameCount, log, host⟩
  cases h
  rfl

theorem lookup_found {c : Setting σ} {name value : String} {s : State σ}
    (h : (ScopeStack.lookup name s.frames <|> c.environment.findVariable name) = some value)
    (span : Option Span) : lookup c name span s = .ok value s := by
  rw [lookup, bind_of_ok (get_apply s), h]
  rfl

theorem lookup_missing {c : Setting σ} {name : String} {s : State σ}
    (h : (ScopeStack.lookup name s.frames <|> c.environment.findVariable name) = none)
    (span : Option Span) :
    lookup c name span s = .error (.error ⟨.undefinedVariable name, span, none⟩) s := by
  rw [lookup, bind_of_ok (get_apply s), h]
  rfl

/-! ## Loops -/

variable {c : Setting σ} {array : String} (call : Option Span → String → Nat → Exec σ Unit)
  (opening closing : Option Span) (body rest : Code)

theorem runCode_loop_of_some {items : List String}
    (h : c.environment.findArray array = some items) :
    runCode c call (.loop opening array body closing rest) = (do
      logStep c ⟨.beginArrayIter array, opening⟩
      emit c (.arrayIter ⟨array, items, opening⟩)
      iterate array opening (runCode c call body) 0 items
      logStep c ⟨.endArrayIter, closing⟩
      runCode c call rest) := by
  rw [runCode, h]

theorem runCode_loop_of_none (h : c.environment.findArray array = none) :
    runCode c call (.loop opening array body closing rest) = (do
      logStep c ⟨.beginArrayIter array, opening⟩
      fail (.undefinedArray array) opening) := by
  rw [runCode, h]
  rfl

end Exec

end Stencil
