import Stencil.Proofs.Showing

/-!
# Runs chunk by chunk

An evaluation tells which text is written.  An account tells more: one by one the chunks
that are handed to the sink, and how many macros are called.  Instructions keep an account
if, without hooks and with a sink that accepts everything, they hand on these chunks and
then end, or fail where the account stops.  What is handed on while a capture is open is
collected into it, and how it is cut into chunks does not matter then.
-/

namespace Stencil

structure Account where
  chunks : List String
  calls : Nat
  stopped : Option Undefined
  deriving DecidableEq

namespace Account

def nothing : Account := ⟨[], 0, none⟩

def chunk (text : String) : Account := ⟨[text], 0, none⟩

/-- A macro is called. -/
def call : Account := ⟨[], 1, none⟩

def stop (u : Undefined) : Account := ⟨[], 0, some u⟩

/-- What follows is accounted for unless there was a stop. -/
def andThen (first second : Account) : Account :=
  match first.stopped with
  | some _ => first
  | none => ⟨first.chunks ++ second.chunks, first.calls + second.calls, second.stopped⟩

def sequence : List Account → Account
  | [] => nothing
  | a :: as => a.andThen (sequence as)

/-- Goes on with the text of the chunks, which are not handed on. -/
def captured (a : Account) (next : String → Account) : Account :=
  (Account.mk [] a.calls a.stopped).andThen (next (String.join a.chunks))

def forItems (each : Nat → String → Account) : Nat → List String → Account
  | _, [] => nothing
  | index, item :: items => (each index item).andThen (forItems each (index + 1) items)

theorem nothing_andThen (a : Account) : nothing.andThen a = a := by
  simp [nothing, andThen]

theorem andThen_nothing (a : Account) : a.andThen nothing = a := by
  rcases a with ⟨chunks, calls, stopped⟩
  cases stopped with
  | none => simp [nothing, andThen]
  | some u => rfl

theorem andThen_assoc (first second third : Account) :
    (first.andThen second).andThen third = first.andThen (second.andThen third) := by
  rcases first with ⟨chunks, calls, stopped⟩
  rcases second with ⟨chunks', calls', stopped'⟩
  cases stopped with
  | some u => rfl
  | none =>
      cases stopped' with
      | some u => rfl
      | none => simp [andThen, Nat.add_assoc]

theorem captured_andThen (a after : Account) (next : String → Account) :
    (a.captured next).andThen after = a.captured fun text => (next text).andThen after :=
  andThen_assoc _ _ _

end Account

/-! ## The account of a document -/

namespace Environment

def account (env : Environment) (bound : Bindings) (name : String) (span : Span) : Account :=
  match List.lookup name bound <|> env.findVariable name with
  | some value => .chunk value
  | none => .stop (.scalar name span)

end Environment

namespace Piece

def account (env : Environment) (bound : Bindings) (literal : Span) : Piece → Account
  | text _ _ value => .chunk (String.ofList value)
  | interpolation start stop name =>
      env.account bound (String.ofList name) (literal.slice (start + 1) (stop + 1))

end Piece

namespace Operand

/-- One chunk for a variable, and one for each piece of a string. -/
def account (env : Environment) (bound : Bindings) : Operand → Account
  | identifier span name => env.account bound name span
  | string span raw =>
      match StringBody.pieces 0 raw.toList with
      | .ok pieces => .sequence (pieces.map (Piece.account env bound span))
      | .error _ => .nothing

end Operand

namespace Block

/-- The pattern is collected, and the chunks of the body are handed on. -/
def accountMacro (env : Environment) (b : Block) (name : String) (bound : Bindings) : Account :=
  match b.findMacro name with
  | none => .nothing
  | some (pattern, body) =>
      Account.call.andThen ((pattern.account env bound).captured fun text =>
        body.account env ((Binding.pattern, text) :: bound))

def accountItem (env : Environment) (b : Block) (name : String) (index : Nat) (item : String) :
    Account :=
  b.accountMacro env name [(Binding.index, toString index), (Binding.item, item)]

def accountExpression (env : Environment) (b : Block) : Expression → Account
  | .plain (.operand o) => o.account env []
  | .plain (.array span name) =>
      match env.findArray name with
      | some items => Account.forItems (fun _ item => .chunk item) 0 items
      | none => .stop (.array name span)
  | .pipe (.array span name) target =>
      match env.findArray name with
      | some items => Account.forItems (b.accountItem env target.name) 0 items
      | none => .stop (.array name span)
  | .pipe (.operand o) target =>
      (o.account env []).captured fun text =>
        b.accountMacro env target.name [(Binding.item, text), (Binding.index, "0")]

def accountStatement (env : Environment) (b : Block) : Statement → Account
  | .expression e => b.accountExpression env e
  | _ => .nothing

end Block

namespace Item

def account (env : Environment) : Item → Account
  | hostText _ text => if text = "" then .nothing else .chunk text
  | block b => .sequence (b.statements.map (b.accountStatement env))

end Item

namespace Document

def account (env : Environment) (d : Document) : Account :=
  .sequence (d.items.map (Item.account env))

end Document

/-! ## What a run has handed on -/

/-- The chunks that reached the sink, the open captures, innermost first, and the number of
macro calls. -/
structure Tape where
  written : List String
  captures : List String
  calls : Nat

namespace Tape

/-- The tape after an account. -/
def after (a : Account) : Tape → Tape
  | ⟨written, [], calls⟩ => ⟨written ++ a.chunks, [], calls + a.calls⟩
  | ⟨written, innermost :: outer, calls⟩ =>
      ⟨written, (innermost ++ String.join a.chunks) :: outer, calls + a.calls⟩

theorem after_nothing (t : Tape) : t.after .nothing = t := by
  rcases t with ⟨written, captures, calls⟩
  cases captures with
  | nil => simp [after, Account.nothing]
  | cons innermost outer => simp [after, Account.nothing]

theorem after_andThen {first : Account} (h : first.stopped = none) (second : Account) (t : Tape) :
    t.after (first.andThen second) = (t.after first).after second := by
  rcases t with ⟨written, captures, calls⟩
  have heq : first.andThen second =
      ⟨first.chunks ++ second.chunks, first.calls + second.calls, second.stopped⟩ := by
    rw [Account.andThen, h]
  rw [heq]
  cases captures with
  | nil => simp [after, Nat.add_assoc]
  | cons innermost outer => simp [after, Nat.add_assoc, String.append_assoc]

end Tape

namespace Instruction

def isCall (i : Instruction) : Bool :=
  i.opcode == "BEGIN_MACRO_CALL"

end Instruction

namespace State

variable {σ : Type}

/-- How many macro calls are logged. -/
def calls (s : State σ) : Nat :=
  s.log.toList.countP fun entry => entry.instruction.isCall

def tape (s : State σ) : Tape :=
  ⟨s.host.written.toList, s.captures, s.calls⟩

theorem calls_logged (verbose : Bool) (i : Instruction) (s : State σ) :
    (s.logged verbose i).calls = s.calls + if i.isCall then 1 else 0 := by
  simp [calls, logged, List.countP_append, List.countP_singleton]

end State

namespace Account

variable {σ : Type}

/-- A result that began in state `s` is as accounted for.  A run that ends leaves the scopes
`frames`. -/
def Describes (a : Account) (frames : ScopeStack) (s : State σ) :
    EStateM.Result Fault (State σ) Unit → Prop
  | .ok _ s' => a.stopped = none ∧ s'.frames = frames ∧ s'.tape = s.tape.after a
  | .error fault s' => ∃ u, a.stopped = some u ∧ fault = .error u.error ∧
      s'.tape.written = (s.tape.after a).written ∧ s'.tape.calls = (s.tape.after a).calls

theorem describes_andThen {first second : Account} {frames : ScopeStack} {s s' : State σ}
    {r : EStateM.Result Fault (State σ) Unit} (hgoes : first.stopped = none)
    (htape : s'.tape = s.tape.after first) (h : second.Describes frames s' r) :
    (first.andThen second).Describes frames s r := by
  have hstopped : (first.andThen second).stopped = second.stopped := by
    rw [andThen, hgoes]
  cases r with
  | ok a s'' =>
      rcases h with ⟨hends, hframes, hafter⟩
      refine ⟨hstopped.trans hends, hframes, ?_⟩
      rw [hafter, htape, Tape.after_andThen hgoes]
  | error fault s'' =>
      rcases h with ⟨u, hends, hfault, hwritten, hcalls⟩
      refine ⟨u, hstopped.trans hends, hfault, ?_, ?_⟩
      · rw [hwritten, htape, Tape.after_andThen hgoes]
      · rw [hcalls, htape, Tape.after_andThen hgoes]

end Account

/-! ## Keeping an account -/

namespace Exec

variable {σ : Type} {c : Setting σ} {F G H : ScopeStack}

/-- From the scopes `F`, a computation keeps an account and leaves `G`. -/
def Keeps (F G : ScopeStack) (m : Exec σ Unit) (a : Account) : Prop :=
  ∀ s, s.frames = F → a.Describes G s (m s)

theorem keeps_seq {m₁ m₂ : Exec σ Unit} {a₁ a₂ : Account} (h₁ : Keeps F G m₁ a₁)
    (h₂ : Keeps G H m₂ a₂) : Keeps F H (do m₁; m₂) (a₁.andThen a₂) := by
  intro s hs
  have hfirst := h₁ s hs
  cases hr : m₁ s with
  | ok a s' =>
      rw [hr] at hfirst
      rw [bind_of_ok hr]
      rcases hfirst with ⟨hgoes, hframes, htape⟩
      exact Account.describes_andThen hgoes htape (h₂ s' hframes)
  | error fault s' =>
      rw [hr] at hfirst
      rw [bind_of_error hr]
      rcases hfirst with ⟨u, hstopped, hfault, hwritten⟩
      have heq : a₁.andThen a₂ = a₁ := by
        rw [Account.andThen, hstopped]
      rw [heq]
      exact ⟨u, hstopped, hfault, hwritten⟩

/-- A step that hands nothing on and does not fail. -/
theorem keeps_quiet {m : Exec σ Unit}
    (h : ∀ s, s.frames = F → ∃ s', m s = .ok () s' ∧ s'.frames = G ∧ s'.tape = s.tape) :
    Keeps F G m .nothing := by
  intro s hs
  rcases h s hs with ⟨s', hm, hframes, htape⟩
  rw [hm]
  exact ⟨rfl, hframes, htape.trans (Tape.after_nothing _).symm⟩

theorem keeps_pure : Keeps F F (pure () : Exec σ Unit) .nothing :=
  keeps_quiet fun s hs => ⟨s, rfl, hs, rfl⟩

theorem keeps_after_quiet {m₁ m₂ : Exec σ Unit} {a : Account} (h₁ : Keeps F G m₁ .nothing)
    (h₂ : Keeps G H m₂ a) : Keeps F H (do m₁; m₂) a := by
  have h := keeps_seq h₁ h₂
  rwa [Account.nothing_andThen] at h

theorem keeps_before_quiet {m₁ m₂ : Exec σ Unit} {a : Account} (h₁ : Keeps F G m₁ a)
    (h₂ : Keeps G H m₂ .nothing) : Keeps F H (do m₁; m₂) a := by
  have h := keeps_seq h₁ h₂
  rwa [Account.andThen_nothing] at h

theorem keeps_fail (u : Undefined) :
    Keeps F G (fail u.cause (some u.span) : Exec σ Unit) (.stop u) := by
  intro s _
  have hafter : s.tape.after (.stop u) = s.tape := Tape.after_nothing s.tape
  exact ⟨u, rfl, rfl, by rw [hafter], by rw [hafter]⟩

/-! ### Hooks and steps -/

theorem keeps_emit (hc : c.Plain) (event : Event) : Keeps F F (emit c event) .nothing := by
  apply keeps_quiet
  intro s hs
  refine ⟨s, ?_, hs, rfl⟩
  rw [emit, hc.noHooks]
  rfl

theorem logStep_of_plain (hc : c.Plain) (i : Instruction) (s : State σ) :
    logStep c i s = .ok () (s.logged c.verbose i) := by
  rw [logStep_apply, hc.noHooks]
  rfl

theorem keeps_logStep (hc : c.Plain) {i : Instruction} (hi : i.isCall = false) :
    Keeps F F (logStep c i) .nothing := by
  apply keeps_quiet
  intro s hs
  refine ⟨s.logged c.verbose i, logStep_of_plain hc i s, hs, ?_⟩
  rw [State.tape, State.calls_logged, hi]
  rfl

theorem keeps_logCall (hc : c.Plain) {i : Instruction} (hi : i.isCall = true) :
    Keeps F F (logStep c i) .call := by
  intro s hs
  rw [logStep_of_plain hc i s]
  refine ⟨rfl, hs, ?_⟩
  rw [State.tape, State.calls_logged, hi, State.tape]
  change Tape.mk s.host.written.toList s.captures (s.calls + 1) = _
  cases s.captures with
  | nil => simp [Tape.after, Account.call]
  | cons innermost outer => simp [Tape.after, Account.call]

/-! ### Handing on -/

theorem keeps_write (hc : c.Plain) (text : String) : Keeps F F (write c text) (.chunk text) := by
  intro s hs
  cases hcaptures : s.captures with
  | cons innermost outer =>
      rw [write_captured c text hcaptures]
      refine ⟨rfl, hs, ?_⟩
      simp [State.tape, State.calls, hcaptures, Tape.after, Account.chunk]
  | nil =>
      have hfilter : hooks .outputFilter (c.registry.filterOutput c.machine text) s =
          .ok text s := by
        rw [hc.noHooks]
        rfl
      rw [write_uncaptured c text hcaptures, bind_of_ok hfilter,
        deliver_accepted (hc.accepts _ _)]
      refine ⟨rfl, hs, ?_⟩
      simp [State.tape, State.calls, hcaptures, Tape.after, Host.write, Account.chunk]

theorem keeps_emitVar (hc : c.Plain) (call : Option Span → String → Nat → Exec σ Unit)
    {bound : Bindings} (hbound : Binds F bound) (name : String) (span : Span) :
    Keeps F F (perform c call (some span) (.emitVar name))
      (c.environment.account bound name span) := by
  intro s hs
  rw [perform]
  rw [Environment.account, ← hbound, ← hs]
  cases hvalue : (ScopeStack.lookup name s.frames <|> c.environment.findVariable name) with
  | some value =>
      rw [bind_of_ok (lookup_found hvalue (some span))]
      exact keeps_write hc value s rfl
  | none =>
      rw [bind_of_error (lookup_missing hvalue (some span))]
      exact keeps_fail (F := s.frames) (.scalar name span) s rfl

/-! ### Captures -/

theorem keeps_capture {value : Exec σ Unit} {after : String → Exec σ Unit} {a : Account}
    {next : String → Account} (hvalue : Keeps F G value a)
    (hafter : ∀ text, Keeps G H (after text) (next text)) :
    Keeps F H (do beginCapture; value; after (← endCapture)) (a.captured next) := by
  intro s hs
  rw [bind_of_ok (beginCapture_apply s)]
  have hcollected : ∀ s' : State σ, s'.captures = s.captures →
      s'.host.written.toList = s.host.written.toList → s'.calls = s.calls + a.calls →
      s'.tape = s.tape.after ⟨[], a.calls, a.stopped⟩ := by
    intro s' hcaptures hwritten hcalls
    rw [State.tape, hcaptures, hwritten, hcalls, State.tape]
    cases s.captures with
    | nil => simp [Tape.after]
    | cons innermost outer => simp [Tape.after]
  have hdescribed := hvalue { s with captures := "" :: s.captures } hs
  cases hr : value { s with captures := "" :: s.captures } with
  | error fault s' =>
      rw [hr] at hdescribed
      rcases hdescribed with ⟨u, hstopped, hfault, hwritten, hcalls⟩
      rw [bind_of_error hr]
      have htape := hcollected { s' with captures := s.captures } rfl hwritten hcalls
      have hlost := congrArg Tape.written htape
      have hcounted := congrArg Tape.calls htape
      have heq : a.captured next = ⟨[], a.calls, a.stopped⟩ := by
        rw [Account.captured, Account.andThen, hstopped]
      rw [heq]
      exact ⟨u, hstopped, hfault, hlost, hcounted⟩
  | ok _ s' =>
      rw [hr] at hdescribed
      rcases hdescribed with ⟨hgoes, hframes, htape⟩
      have hcaptures : s'.captures = ("" ++ String.join a.chunks) :: s.captures :=
        congrArg Tape.captures htape
      rw [bind_of_ok hr, bind_of_ok (endCapture_open hcaptures), String.empty_append]
      have hlast := hafter (String.join a.chunks) { s' with captures := s.captures } hframes
      exact Account.describes_andThen hgoes
        (hcollected { s' with captures := s.captures } rfl (congrArg Tape.written htape)
          (congrArg Tape.calls htape)) hlast

/-! ### Scopes -/

theorem keeps_pushFrame {name : String} {kind : FrameKind} {span : Option Span}
    {values : Bindings} {after : Exec σ Unit} {a : Account}
    (h : ∀ id, Keeps (⟨name, kind, id, span, values⟩ :: F) G after a) :
    Keeps F G (do pushFrame name kind span values; after) a := by
  intro s hs
  rw [bind_of_ok (pushFrame_apply name kind span values s)]
  subst hs
  exact h _ (s.opened name kind span values) rfl

theorem keeps_popFrame (frame : Frame) :
    Keeps (frame :: F) F (popFrame : Exec σ Unit) .nothing := by
  apply keeps_quiet
  intro s hs
  exact ⟨_, popFrame_open hs, rfl, rfl⟩

theorem keeps_bind (frame : Frame) (name value : String) :
    Keeps (frame :: F) ({ frame with values := Entries.set name value frame.values } :: F)
      (bind name value : Exec σ Unit) .nothing := by
  apply keeps_quiet
  intro s hs
  exact ⟨_, bind_open hs name value, rfl, rfl⟩

theorem keeps_iterate {array : String} {span : Option Span} {body : Exec σ Unit}
    {each : Nat → String → Account}
    (hbody : ∀ name id index item,
      Keeps (.ofItem span name id index item :: F) (.ofItem span name id index item :: F)
        body (each index item))
    (index : Nat) (items : List String) :
    Keeps F F (iterate array span body index items) (Account.forItems each index items) := by
  induction items generalizing index with
  | nil => exact keeps_pure
  | cons item items ih =>
      rw [iterate, Account.forItems]
      apply keeps_pushFrame
      intro id
      apply keeps_seq (hbody _ id index item)
      exact keeps_after_quiet (keeps_popFrame _) (ih (index + 1))

/-! ### Code -/

variable {call : Option Span → String → Nat → Exec σ Unit}

theorem keeps_append {first second : Code} {a a' : Account}
    (hfirst : Keeps F G (runCode c call first) a) (hsecond : Keeps G H (runCode c call second) a') :
    Keeps F H (runCode c call (first.append second)) (a.andThen a') := by
  rw [runCode_append]
  exact keeps_seq hfirst hsecond

theorem keeps_step (hc : c.Plain) {action : Action} {span : Option Span} {rest : Code}
    {a a' : Account} (hcall : (Instruction.of action span).isCall = false)
    (haction : Keeps F G (perform c call span action) a)
    (hrest : Keeps G H (runCode c call rest) a') :
    Keeps F H (runCode c call (.step action span rest)) (a.andThen a') := by
  rw [runCode]
  apply keeps_after_quiet (keeps_logStep hc hcall)
  exact keeps_seq haction hrest

/-- A captured value is bound in the innermost frame. -/
theorem keeps_binding (hc : c.Plain) {frame : Frame} {value rest : Code} {name : String}
    {opening closing : Option Span} {a : Account} {next : String → Account}
    (hvalue : Keeps (frame :: F) (frame :: F) (runCode c call value) a)
    (hrest : ∀ text, Keeps ({ frame with values := Entries.set name text frame.values } :: F) H
      (runCode c call rest) (next text)) :
    Keeps (frame :: F) H
      (runCode c call
        (.step .beginCapture opening (value.append (.step (.endCapture name) closing rest))))
      (a.captured next) := by
  rw [runCode, runCode_append, runCode]
  apply keeps_after_quiet (keeps_logStep hc rfl)
  have hlogged : Keeps (frame :: F) (frame :: F)
      (do runCode c call value; logStep c (.of (.endCapture name) closing)) a :=
    keeps_before_quiet hvalue (keeps_logStep hc rfl)
  have h := keeps_capture hlogged
    (fun text => keeps_after_quiet (keeps_bind frame name text) (hrest text))
  simpa only [perform, bind_assoc] using h

theorem keeps_loop (hc : c.Plain) {array : String} {opening : Span} {closing : Option Span}
    {body rest : Code} {items : List String} {each : Nat → String → Account} {a : Account}
    (hitems : c.environment.findArray array = some items)
    (hbody : ∀ name id index item,
      Keeps (.ofItem (some opening) name id index item :: F)
        (.ofItem (some opening) name id index item :: F) (runCode c call body) (each index item))
    (hrest : Keeps F G (runCode c call rest) a) :
    Keeps F G (runCode c call (.loop (some opening) array body closing rest))
      ((Account.forItems each 0 items).andThen a) := by
  rw [runCode_loop_of_some _ _ _ _ _ hitems]
  apply keeps_after_quiet (keeps_logStep hc rfl)
  apply keeps_after_quiet (keeps_emit hc _)
  apply keeps_seq (keeps_iterate hbody 0 items)
  exact keeps_after_quiet (keeps_logStep hc rfl) hrest

theorem keeps_missing_loop (hc : c.Plain) {array : String} {opening : Span}
    {closing : Option Span} {body rest : Code} (hitems : c.environment.findArray array = none) :
    Keeps F G (runCode c call (.loop (some opening) array body closing rest))
      (.stop (.array array opening)) := by
  rw [runCode_loop_of_none _ _ _ _ _ hitems]
  apply keeps_after_quiet (keeps_logStep hc rfl)
  exact keeps_fail (.array array opening)

theorem keeps_call (hc : c.Plain) {macros : MacroTable} {depth : Nat} {name : String}
    {block : Nat} {opening closing : Option Span} {rest : Code} {m : Macro}
    {pattern a : Account} {body : String → Account} (hm : macros.get? block name = some m)
    (hpattern : Keeps F F (runFragment c (callMacro c macros depth) m.pattern) pattern)
    (hbody : ∀ text id,
      Keeps (.ofCall opening m.name id text :: F) (.ofCall opening m.name id text :: F)
        (runFragment c (callMacro c macros depth) m.body) (body text))
    (hrest : Keeps F G (runCode c (callMacro c macros (depth + 1)) rest) a) :
    Keeps F G
      (runCode c (callMacro c macros (depth + 1))
        (.step (.beginMacroCall name block) opening (.step .endMacroCall closing rest)))
      ((Account.call.andThen (pattern.captured body)).andThen a) := by
  rw [runCode, runCode, Account.andThen_assoc]
  apply keeps_seq (keeps_logCall hc rfl)
  rw [Account.captured_andThen]
  have h := keeps_capture hpattern (fun text =>
    keeps_after_quiet (keeps_emit hc (.macroCall ⟨m.name, m.block, opening, text⟩))
      (keeps_pushFrame fun id =>
        keeps_seq (hbody text id)
          (keeps_after_quiet (keeps_logStep hc (i := .of .endMacroCall closing) rfl)
            (keeps_after_quiet (keeps_popFrame _) hrest))))
  simpa only [perform, callMacro, hm, bind_assoc] using h

/-! ## Compiled code keeps the account of its document -/

/-- Instructions, once their iterations are matched, keep an account and leave the scopes as
they were. -/
def Kept (c : Setting σ) (call : Option Span → String → Nat → Exec σ Unit) (F : ScopeStack)
    (is : List Instruction) (a : Account) : Prop :=
  ∃ code : Code, code.toInstructions = is ∧ Keeps F F (runCode c call code) a

theorem kept_nil : Kept c call F [] .nothing :=
  ⟨.done, rfl, keeps_pure⟩

theorem kept_one (hc : c.Plain) {action : Action} {span : Option Span} {a : Account}
    (hcall : (Instruction.of action span).isCall = false)
    (haction : Keeps F F (perform c call span action) a) :
    Kept c call F [.of action span] a := by
  have hdone : Keeps F F (runCode c call .done) .nothing := keeps_pure
  have h := keeps_step hc hcall haction hdone
  rw [Account.andThen_nothing] at h
  exact ⟨.step action span .done, rfl, h⟩

theorem kept_append {first second : List Instruction} {a a' : Account}
    (hfirst : Kept c call F first a) (hsecond : Kept c call F second a') :
    Kept c call F (first ++ second) (a.andThen a') := by
  rcases hfirst with ⟨firstCode, rfl, hfirst⟩
  rcases hsecond with ⟨secondCode, rfl, hsecond⟩
  exact ⟨firstCode.append secondCode, Code.toInstructions_append _ _,
    keeps_append hfirst hsecond⟩

/-- Instructions have one code only. -/
theorem keeps_of_kept {code : Code} {a : Account} (h : Kept c call F code.toInstructions a) :
    Keeps F F (runCode c call code) a := by
  rcases h with ⟨code', hcode', hkeeps⟩
  have hsame := congrArg Code.ofInstructions hcode'
  rw [Code.ofInstructions_toInstructions, Code.ofInstructions_toInstructions] at hsame
  cases hsame
  exact hkeeps

theorem keeps_fragment {is : List Instruction} {a : Account} (h : Kept c call F is a) :
    Keeps F F (runFragment c call is) a := by
  rcases h with ⟨code, rfl, hcode⟩
  rw [runFragment, Code.ofInstructions_toInstructions]
  exact hcode

theorem kept_operand (hc : c.Plain) {bound : Bindings} (hbound : Binds F bound) {o : Operand}
    {is : List Instruction} (h : o.lower = .ok is) :
    Kept c call F is (o.account c.environment bound) := by
  have hpiece (literal : Span) (piece : Piece) :
      Kept c call F [piece.lower literal] (piece.account c.environment bound literal) := by
    cases piece with
    | text start stop value => exact kept_one hc rfl (keeps_write hc _)
    | interpolation start stop name =>
        exact kept_one hc rfl (keeps_emitVar hc call hbound _ _)
  cases o with
  | identifier span name =>
      cases h
      exact kept_one hc rfl (keeps_emitVar hc call hbound name span)
  | string span raw =>
      simp only [Operand.lower] at h
      split at h
      · rename_i pieces hpieces
        cases h
        simp only [Operand.account, hpieces]
        clear hpieces
        induction pieces with
        | nil => exact kept_nil
        | cons piece pieces ih => exact kept_append (hpiece span piece) ih
      · cases h

theorem keeps_accountMacro (hc : c.Plain) {macros : MacroTable} {depth : Nat} {b : Block}
    {name : String} (hresolves : b.Resolves macros name) {bound : Bindings}
    (hbound : Binds F bound) (opening closing : Option Span) {G : ScopeStack} {rest : Code}
    {a : Account} (hrest : Keeps F G (runCode c (callMacro c macros (depth + 1)) rest) a) :
    Keeps F G
      (runCode c (callMacro c macros (depth + 1))
        (.step (.beginMacroCall name b.index) opening (.step .endMacroCall closing rest)))
      ((b.accountMacro c.environment name bound).andThen a) := by
  rcases hresolves with ⟨pattern, body, m, hfind, hm, _, _, hpattern, hbody⟩
  rw [Block.accountMacro, hfind]
  apply keeps_call hc hm _ _ hrest
  · exact keeps_fragment (kept_operand hc hbound hpattern)
  · intro text id
    exact keeps_fragment (kept_operand hc (binds_cons hbound _) hbody)

/-! ### Expressions -/

theorem keeps_one_step (hc : c.Plain) {action : Action} {span : Option Span} {rest : Code}
    {a : Account} (hcall : (Instruction.of action span).isCall = false)
    (haction : Keeps F G (perform c call span action) .nothing)
    (hrest : Keeps G H (runCode c call rest) a) :
    Keeps F H (runCode c call (.step action span rest)) a := by
  have h := keeps_step hc hcall haction hrest
  rwa [Account.nothing_andThen] at h

theorem kept_array (hc : c.Plain) (name : String) (span : Span) (closing : Option Span)
    {body : Code} {each : Nat → String → Account}
    (hbody : ∀ place id index item,
      Keeps [.ofItem (some span) place id index item] [.ofItem (some span) place id index item]
        (runCode c call body) (each index item)) :
    Kept c call []
      (⟨.beginArrayIter name, some span⟩ ::
        (body.toInstructions ++ [⟨.endArrayIter, closing⟩]))
      (match c.environment.findArray name with
      | some items => Account.forItems each 0 items
      | none => .stop (.array name span)) := by
  refine ⟨.loop (some span) name body closing .done, rfl, ?_⟩
  cases hitems : c.environment.findArray name with
  | none => exact keeps_missing_loop hc hitems
  | some items =>
      have hdone : Keeps [] [] (runCode c call .done) .nothing := keeps_pure
      have h : Keeps [] [] (runCode c call (.loop (some span) name body closing .done))
          ((Account.forItems each 0 items).andThen .nothing) :=
        keeps_loop hc hitems hbody hdone
      rwa [Account.andThen_nothing] at h

theorem kept_plain_array (hc : c.Plain) (b : Block) (span : Span) (name : String) :
    Kept c call []
      [⟨.beginArrayIter name, some span⟩, .of (.emitVar Binding.item) (some span),
        ⟨.endArrayIter, some span⟩]
      (b.accountExpression c.environment (.plain (.array span name))) := by
  have hbody : ∀ place id index item,
      Keeps [.ofItem (some span) place id index item] [.ofItem (some span) place id index item]
        (runCode c call (.step (.emitVar Binding.item) (some span) .done)) (.chunk item) := by
    intro place id index item
    have haction := keeps_emitVar hc call
      (binds_cons binds_nil (.ofItem (some span) place id index item)) Binding.item span
    have hitem : c.environment.account
        ((Frame.ofItem (some span) place id index item).values ++ []) Binding.item span =
          .chunk item := by
      simp [Environment.account, Frame.ofItem, Binding.item, Binding.index, List.lookup_cons]
    rw [hitem] at haction
    have hone : Kept c call [.ofItem (some span) place id index item]
        (Code.step (.emitVar Binding.item) (some span) .done).toInstructions (.chunk item) :=
      kept_one hc rfl haction
    exact keeps_of_kept hone
  exact kept_array hc name span (some span) hbody

theorem keeps_item_call (hc : c.Plain) {macros : MacroTable} {depth : Nat} {b : Block}
    {target : MacroRef} (hresolves : b.Resolves macros target.name) (span : Span)
    (place : String) (id : FrameId) (index : Nat) (item : String) :
    Keeps [.ofItem (some span) place id index item] [.ofItem (some span) place id index item]
      (runCode c (callMacro c macros (depth + 1))
        (.step (.beginMacroCall target.name b.index) target.span
          (.step .endMacroCall target.span .done)))
      (b.accountItem c.environment target.name index item) := by
  have hdone : Keeps [.ofItem (some span) place id index item]
      [.ofItem (some span) place id index item]
      (runCode c (callMacro c macros (depth + 1)) .done) .nothing := keeps_pure
  have h := keeps_accountMacro hc hresolves (binds_cons binds_nil _) target.span target.span hdone
  rwa [Account.andThen_nothing] at h

theorem kept_array_pipe (hc : c.Plain) {macros : MacroTable} {depth : Nat} {b : Block}
    {target : MacroRef} (hresolves : b.Resolves macros target.name) (span : Span)
    (name : String) :
    Kept c (callMacro c macros (depth + 1)) []
      (⟨.beginArrayIter name, some span⟩ :: (target.lower b.index ++ [⟨.endArrayIter, some span⟩]))
      (b.accountExpression c.environment (.pipe (.array span name) target)) :=
  kept_array hc name span (some span) fun place id index item =>
    keeps_item_call hc hresolves span place id index item

/-- The call in a scope that binds the item and the index, and the end of the scope. -/
theorem keeps_scalarCall (hc : c.Plain) {macros : MacroTable} {depth : Nat} {b : Block}
    {name : String} (hresolves : b.Resolves macros name) (span calling : Option Span)
    (id : FrameId) (text zero : String) :
    Keeps [scalarScope span id [(Binding.item, text), (Binding.index, zero)]] []
      (runCode c (callMacro c macros (depth + 1))
        (.step (.beginMacroCall name b.index) calling
          (.step .endMacroCall calling (.step .popScope span .done))))
      (b.accountMacro c.environment name [(Binding.item, text), (Binding.index, zero)]) := by
  have hclosed : Keeps
      [scalarScope span id [(Binding.item, text), (Binding.index, zero)]] []
      (runCode c (callMacro c macros (depth + 1)) (.step .popScope span .done)) .nothing :=
    keeps_one_step hc rfl (keeps_popFrame _) keeps_pure
  have h := keeps_accountMacro hc hresolves (binds_cons binds_nil _) calling calling hclosed
  rwa [Account.andThen_nothing] at h

/-- What follows in a scope that binds the item: the index is bound to zero. -/
theorem keeps_scalarIndex (hc : c.Plain) {macros : MacroTable} {depth : Nat} {b : Block}
    {name : String} (hresolves : b.Resolves macros name) (span calling : Option Span)
    (id : FrameId) (text : String) :
    Keeps [scalarScope span id [(Binding.item, text)]] []
      (runCode c (callMacro c macros (depth + 1))
        (.step .beginCapture span
          ((Code.step (.emitLiteral "0") span .done).append
            (.step (.endCapture Binding.index) span
              (.step (.beginMacroCall name b.index) calling
                (.step .endMacroCall calling (.step .popScope span .done)))))))
      (b.accountMacro c.environment name [(Binding.item, text), (Binding.index, "0")]) := by
  have hzero : Keeps [scalarScope span id [(Binding.item, text)]]
      [scalarScope span id [(Binding.item, text)]]
      (runCode c (callMacro c macros (depth + 1)) (.step (.emitLiteral "0") span .done))
      ((Account.chunk "0").andThen .nothing) :=
    keeps_step hc rfl (keeps_write hc "0") keeps_pure
  rw [Account.andThen_nothing] at hzero
  have hcaptured (next : String → Account) : (Account.chunk "0").captured next = next "0" :=
    Account.nothing_andThen (next "0")
  rw [← hcaptured fun zero =>
    b.accountMacro c.environment name [(Binding.item, text), (Binding.index, zero)]]
  apply keeps_binding hc hzero
  intro zero
  have hset : Entries.set Binding.index zero [(Binding.item, text)] =
      [(Binding.item, text), (Binding.index, zero)] := by
    simp [Entries.set, Binding.item, Binding.index]
  simp only [scalarScope, hset]
  exact keeps_scalarCall hc hresolves span calling id text zero

/-- Before the call the scope binds the item, and then the index. -/
theorem keeps_scalarPipe (hc : c.Plain) {macros : MacroTable} {depth : Nat} {b : Block}
    {name : String} (hresolves : b.Resolves macros name) (span calling : Option Span)
    {value : Code} {a : Account}
    (hvalue : ∀ id, Keeps [scalarScope span id []] [scalarScope span id []]
      (runCode c (callMacro c macros (depth + 1)) value) a) :
    Keeps [] []
      (runCode c (callMacro c macros (depth + 1)) (scalarPipe span value name b.index calling))
      (a.captured fun text =>
        b.accountMacro c.environment name [(Binding.item, text), (Binding.index, "0")]) := by
  rw [scalarPipe, runCode]
  apply keeps_after_quiet (keeps_logStep hc rfl)
  apply keeps_pushFrame
  intro id
  apply keeps_binding hc (hvalue id)
  intro text
  exact keeps_scalarIndex hc hresolves span calling id text

theorem kept_scalar_pipe (hc : c.Plain) {macros : MacroTable} {depth : Nat} {b : Block}
    {target : MacroRef} (hresolves : b.Resolves macros target.name) {o : Operand}
    {is : List Instruction} (hlower : o.lower = .ok is) :
    Kept c (callMacro c macros (depth + 1)) []
      ([.of .pushScope o.span, .of .beginCapture o.span] ++ is ++
        [.of (.endCapture Binding.item) o.span, .of .beginCapture o.span,
          .of (.emitLiteral "0") o.span, .of (.endCapture Binding.index) o.span] ++
        target.lower b.index ++ [.of .popScope o.span])
      (b.accountExpression c.environment (.pipe (.operand o) target)) := by
  have hvalue : ∀ F bound, Binds F bound →
      Kept c (callMacro c macros (depth + 1)) F is (o.account c.environment bound) :=
    fun F bound hbound => kept_operand hc hbound hlower
  rcases hvalue [] [] binds_nil with ⟨value, rfl, _⟩
  refine ⟨scalarPipe o.span value target.name b.index target.span, ?_, ?_⟩
  · simp [scalarPipe, Code.toInstructions, Code.toInstructions_append, MacroRef.lower]
  · apply keeps_scalarPipe hc hresolves
    intro id
    exact keeps_of_kept (hvalue _ _ (binds_cons binds_nil (scalarScope o.span id [])))

/-- The macro of an expression is one that the table holds. -/
theorem kept_expression (hc : c.Plain) {macros : MacroTable} {depth : Nat} {b : Block}
    {e : Expression} {is : List Instruction} (hlower : e.lower b.index = .ok is)
    (hresolves : ∀ target, (Statement.expression e).call? = some target →
      b.Resolves macros target.name) :
    Kept c (callMacro c macros (depth + 1)) [] is (b.accountExpression c.environment e) := by
  cases e with
  | plain source =>
      cases source with
      | operand o => exact kept_operand hc binds_nil hlower
      | array span name =>
          cases hlower
          exact kept_plain_array hc b span name
  | pipe source target =>
      cases source with
      | operand o =>
          rcases ok_of_bind hlower with ⟨value, hvalue, hend⟩
          cases hend
          exact kept_scalar_pipe hc (hresolves target rfl) hvalue
      | array span name =>
          cases hlower
          exact kept_array_pipe hc (hresolves target rfl) span name

/-! ### Statements, items and documents -/

theorem kept_statement (hc : c.Plain) {macros : MacroTable} {depth : Nat} {b : Block}
    {s : Statement} {is : List Instruction} (hlower : s.lower b.index = .ok is)
    (hresolves : ∀ target, s.call? = some target → b.Resolves macros target.name) :
    Kept c (callMacro c macros (depth + 1)) [] is (b.accountStatement c.environment s) := by
  cases s with
  | comment span text =>
      cases hlower
      exact kept_one hc rfl keeps_pure
  | definition span name pattern body =>
      cases hlower
      exact kept_nil
  | expression e => exact kept_expression hc hlower hresolves

theorem kept_statements (hc : c.Plain) {macros : MacroTable} {depth : Nat} {b : Block}
    {ss : List Statement} {parts : List (List Instruction)}
    (hlower : List.Forall₂ (fun s part => s.lower b.index = .ok part) ss parts)
    (hresolved : ∀ s ∈ ss, ∀ target, s.call? = some target → b.Resolves macros target.name) :
    Kept c (callMacro c macros (depth + 1)) [] parts.flatten
      (.sequence (ss.map (b.accountStatement c.environment))) := by
  induction hlower with
  | nil => exact kept_nil
  | @cons s part ss parts hs _ ih =>
      apply kept_append
      · exact kept_statement hc hs (hresolved s List.mem_cons_self)
      · apply ih
        intro s' hs'
        exact hresolved s' (List.mem_cons_of_mem _ hs')

theorem kept_item (hc : c.Plain) {macros : MacroTable} {depth : Nat} {item : Item}
    {part : List Macro × List Instruction} (hlower : item.lower = .ok part)
    (hresolved : ∀ b, item = .block b → b.Resolved macros) :
    Kept c (callMacro c macros (depth + 1)) [] part.2 (item.account c.environment) := by
  cases item with
  | hostText span text =>
      cases hlower
      rw [Item.account]
      by_cases htext : text = ""
      · simp only [htext, if_true]
        exact kept_nil
      · simp only [htext, if_false]
        exact kept_one hc rfl (keeps_write hc text)
  | block b =>
      rcases (Block.lowered_of_lower hlower).code with ⟨parts, hparts, hcode⟩
      rw [hcode]
      exact kept_statements hc hparts (hresolved b rfl)

theorem kept_items (hc : c.Plain) {macros : MacroTable} {depth : Nat} {items : List Item}
    {parts : List (List Macro × List Instruction)}
    (hlower : List.Forall₂ (fun item part => item.lower = .ok part) items parts)
    (hresolved : ∀ b, Item.block b ∈ items → b.Resolved macros) :
    Kept c (callMacro c macros (depth + 1)) [] (parts.map Prod.snd).flatten
      (.sequence (items.map (Item.account c.environment))) := by
  induction hlower with
  | nil => exact kept_nil
  | @cons item part items parts hitem _ ih =>
      apply kept_append
      · apply kept_item hc hitem
        rintro b rfl
        exact hresolved b List.mem_cons_self
      · apply ih
        intro b hb
        exact hresolved b (List.mem_cons_of_mem _ hb)

theorem keeps_program (hc : c.Plain) {document : Document} {p : Program}
    (hlower : document.lower = .ok p) (hindex : (document.blocks.map Block.index).Nodup) :
    Keeps [] [] (program c p) (document.account c.environment) := by
  rcases Document.parts_of_lower hlower with ⟨parts, hparts, hinstructions, _⟩
  have hitems : Kept c (callMacro c p.macros (callDepth p.macros)) [] p.instructions
      (document.account c.environment) := by
    rw [hinstructions]
    apply kept_items hc hparts
    intro b hb
    exact Document.resolved_of_lower hlower hindex hb
  rw [program]
  apply keeps_after_quiet (keeps_emit hc _)
  exact keeps_before_quiet (keeps_fragment hitems) (keeps_emit hc .programEnd)

end Exec

namespace Outcome

variable {σ : Type}

/-- The run handed these chunks to the sink one by one, called as many macros, and failed
where the account stops. -/
structure Follows (o : Outcome σ) (a : Account) : Prop where
  chunks : o.state.host.written.toList = a.chunks
  calls : o.state.calls = a.calls
  failure : o.failure = a.stopped.map fun u => (u.cause, some u.span)

end Outcome

namespace Program

variable {σ : Type} {c : Setting σ}

/-- Without hooks, what reaches the sink is known chunk by chunk from the document. -/
theorem run_follows (hc : c.Plain) {document : Document} {p : Program}
    (hlower : document.lower = .ok p) (hindex : (document.blocks.map Block.index).Nodup)
    (world : σ) : (p.run c world).Follows (document.account c.environment) := by
  have hkept := Exec.keeps_program hc hlower hindex (State.initial world) rfl
  have hstart (a : Account) : (State.initial world).tape.after a = ⟨a.chunks, [], a.calls⟩ := by
    simp [State.initial, State.tape, State.calls, Host.initial, Tape.after]
  cases hresult : Exec.program c p (State.initial world) with
  | ok _ s =>
      rw [hresult] at hkept
      rcases hkept with ⟨hgoes, _, htape⟩
      rw [hstart] at htape
      have hrun : p.run c world = ⟨none, s⟩ := by rw [run, hresult]
      rw [hrun]
      exact ⟨congrArg Tape.written htape, congrArg Tape.calls htape, by rw [hgoes]; rfl⟩
  | error fault s =>
      rw [hresult] at hkept
      rcases hkept with ⟨u, hstopped, rfl, hwritten, hcalls⟩
      rw [hstart] at hwritten hcalls
      rw [run_of_error hc hresult]
      exact ⟨hwritten, hcalls, by rw [hstopped]; rfl⟩

end Program

end Stencil
