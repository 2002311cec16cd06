import Stencil.Proofs.Correctness
import Stencil.Proofs.Numbering

/-!
# What a run costs

How many steps a run logs, how many frames it opens and how many iterations it ends can be
read off the document and the lengths of its arrays.  None of it depends on what is bound or
written, nor on what hooks do, as long as nothing fails.  So the costs of computations add up
in the way in which these are put together.
-/

namespace Stencil

/-- Logged steps, opened frames, and iterations that are logged as ended. -/
@[ext]
structure Cost where
  steps : Nat
  frames : Nat
  loops : Nat
  deriving DecidableEq

namespace Cost

instance : Add Cost :=
  ⟨fun first second =>
    ⟨first.steps + second.steps, first.frames + second.frames, first.loops + second.loops⟩⟩

instance : Zero Cost :=
  ⟨⟨0, 0, 0⟩⟩

def total : List Cost → Cost
  | [] => 0
  | k :: ks => k + total ks

def times (n : Nat) (k : Cost) : Cost :=
  ⟨n * k.steps, n * k.frames, n * k.loops⟩

/-- A frame that is opened. -/
def frame : Cost := ⟨0, 1, 0⟩

/-- An instruction that is logged. -/
def logged (i : Instruction) : Cost :=
  ⟨1, 0, if i.operation = .endArrayIter then 1 else 0⟩

@[simp] theorem steps_add (first second : Cost) :
    (first + second).steps = first.steps + second.steps :=
  rfl

@[simp] theorem frames_add (first second : Cost) :
    (first + second).frames = first.frames + second.frames :=
  rfl

@[simp] theorem loops_add (first second : Cost) :
    (first + second).loops = first.loops + second.loops :=
  rfl

@[simp] theorem steps_zero : (0 : Cost).steps = 0 := rfl

@[simp] theorem frames_zero : (0 : Cost).frames = 0 := rfl

@[simp] theorem loops_zero : (0 : Cost).loops = 0 := rfl

theorem add_zero (k : Cost) : k + 0 = k := rfl

theorem zero_add (k : Cost) : 0 + k = k := by
  ext <;> simp

theorem add_assoc (first second third : Cost) :
    first + second + third = first + (second + third) := by
  ext <;> simp [Nat.add_assoc]

theorem times_succ (n : Nat) (k : Cost) : times (n + 1) k = k + times n k := by
  ext <;> simp [times, Nat.succ_mul, Nat.add_comm]

end Cost

/-! ## The cost of a document -/

namespace Environment

/-- The number of items of an array. -/
def count (env : Environment) (name : String) : Nat :=
  ((env.findArray name).getD []).length

end Environment

namespace Operand

/-- The number of instructions that an operand is lowered to. -/
def size (o : Operand) : Nat :=
  match o.lower with
  | .ok is => is.length
  | .error _ => 0

theorem size_of_lower {o : Operand} {is : List Instruction} (h : o.lower = .ok is) :
    o.size = is.length := by
  rw [size, h]

end Operand

namespace Block

/-- The number of instructions of a macro, those of its pattern and of its body. -/
def macroSize (b : Block) (name : String) : Nat :=
  match b.findMacro name with
  | some (pattern, body) => pattern.size + body.size
  | none => 0

def expressionCost (env : Environment) (b : Block) : Expression → Cost
  | .plain (.operand o) => ⟨o.size, 0, 0⟩
  | .plain (.array _ name) => ⟨2 + env.count name, env.count name, 1⟩
  | .pipe (.array _ name) target =>
      ⟨2 + env.count name * (2 + b.macroSize target.name), 2 * env.count name, 1⟩
  | .pipe (.operand o) target => ⟨9 + o.size + b.macroSize target.name, 2, 0⟩

def statementCost (env : Environment) (b : Block) : Statement → Cost
  | .comment _ _ => ⟨1, 0, 0⟩
  | .definition _ _ _ _ => 0
  | .expression e => b.expressionCost env e

end Block

namespace Item

def cost (env : Environment) : Item → Cost
  | hostText _ text => if text = "" then 0 else ⟨1, 0, 0⟩
  | block b => .total (b.statements.map (b.statementCost env))

end Item

namespace Document

def cost (env : Environment) (d : Document) : Cost :=
  .total (d.items.map (Item.cost env))

end Document

/-! ## What a run has spent -/

namespace State

variable {σ : Type}

/-- How many iterations are logged as ended. -/
def loops (s : State σ) : Nat :=
  s.log.toList.countP fun entry => entry.instruction.operation = .endArrayIter

def spent (s : State σ) : Cost :=
  ⟨s.log.size, s.frameCount, s.loops⟩

theorem spent_logged (verbose : Bool) (i : Instruction) (s : State σ) :
    (s.logged verbose i).spent = s.spent + .logged i := by
  ext
  · exact Array.size_push _
  · rfl
  · simp [spent, loops, logged, Cost.logged, List.countP_append, List.countP_singleton]

theorem spent_opened (name : String) (kind : FrameKind) (span : Option Span) (values : Bindings)
    (s : State σ) : (s.opened name kind span values).spent = s.spent + .frame :=
  rfl

end State

namespace Exec

variable {σ : Type} {α β : Type} {c : Setting σ} {k k' : Cost}

/-- A computation costs this whenever it does not fail. -/
def Costs (m : Exec σ α) (k : Cost) : Prop :=
  ∀ s a s', m s = .ok a s' → s'.spent = s.spent + k

theorem costs_pure (a : α) : Costs (pure a : Exec σ α) 0 := by
  intro s a s' h
  cases h
  rfl

theorem costs_seq {m : Exec σ α} {next : α → Exec σ β} (hm : Costs m k)
    (hnext : ∀ a, Costs (next a) k') : Costs (m >>= next) (k + k') := by
  intro s b s' h
  cases hr : m s with
  | error fault between =>
      rw [bind_of_error hr] at h
      cases h
  | ok a between =>
      rw [bind_of_ok hr] at h
      rw [hnext a between b s' h, hm s a between hr, Cost.add_assoc]

theorem costs_fail (cause : Cause) (span : Option Span) : Costs (fail cause span : Exec σ α) k := by
  intro s a s' h
  cases h

/-! ### What costs nothing -/

theorem costs_hooks (point : HookPoint) (call : HostM σ α) : Costs (hooks point call) 0 := by
  intro s a s' h
  rw [hooks_apply] at h
  split at h
  · cases h
    rfl
  · cases h

theorem costs_emit (event : Event) : Costs (emit c event) 0 :=
  costs_hooks _ _

theorem costs_deliver (text : String) : Costs (deliver c text) 0 := by
  intro s a s' h
  cases haccepts : c.sink s.host.written text with
  | some reason =>
      rw [deliver_refused haccepts] at h
      cases h
  | none =>
      rw [deliver_accepted haccepts] at h
      cases h
      rfl

theorem costs_write (text : String) : Costs (write c text) 0 := by
  intro s a s' h
  cases hcaptures : s.captures with
  | cons innermost outer =>
      rw [write_captured c text hcaptures] at h
      cases h
      rfl
  | nil =>
      rw [write_uncaptured c text hcaptures] at h
      exact costs_seq (costs_hooks _ _) costs_deliver s a s' h

theorem costs_lookup (name : String) (span : Option Span) : Costs (lookup c name span) 0 := by
  intro s a s' h
  cases hvalue : (ScopeStack.lookup name s.frames <|> c.environment.findVariable name) with
  | none =>
      rw [lookup_missing hvalue] at h
      cases h
  | some value =>
      rw [lookup_found hvalue] at h
      cases h
      rfl

theorem costs_beginCapture : Costs (beginCapture : Exec σ Unit) 0 := by
  intro s a s' h
  cases h
  rfl

theorem costs_endCapture : Costs (endCapture : Exec σ String) 0 := by
  intro s a s' h
  cases hcaptures : s.captures with
  | nil =>
      rw [endCapture_none hcaptures] at h
      cases h
  | cons text outer =>
      rw [endCapture_open hcaptures] at h
      cases h
      rfl

theorem costs_bind (name value : String) : Costs (bind name value : Exec σ Unit) 0 := by
  intro s a s' h
  cases hframes : s.frames with
  | nil =>
      rw [bind_none hframes] at h
      cases h
  | cons frame outer =>
      rw [bind_open hframes] at h
      cases h
      rfl

theorem costs_popFrame : Costs (popFrame : Exec σ Unit) 0 := by
  intro s a s' h
  cases hframes : s.frames with
  | nil =>
      rw [popFrame_none hframes] at h
      cases h
  | cons frame outer =>
      rw [popFrame_open hframes] at h
      cases h
      rfl

/-! ### What costs something -/

theorem costs_pushFrame (name : String) (kind : FrameKind) (span : Option Span)
    (values : Bindings) : Costs (pushFrame name kind span values : Exec σ Unit) .frame := by
  intro s a s' h
  cases h
  exact State.spent_opened name kind span values s

theorem costs_logStep (i : Instruction) : Costs (logStep c i) (.logged i) := by
  intro s a s' h
  rw [logStep_apply] at h
  rw [costs_hooks _ _ _ a s' h, State.spent_logged, Cost.add_zero]

theorem costs_iterate {body : Exec σ Unit} (hbody : Costs body k) (array : String)
    (span : Option Span) (index : Nat) (items : List String) :
    Costs (iterate array span body index items) (.times items.length (.frame + k)) := by
  induction items generalizing index with
  | nil =>
      have hnothing : Cost.times 0 (.frame + k) = 0 := by
        ext <;> simp [Cost.times]
      rw [List.length_nil, hnothing]
      exact costs_pure ()
  | cons item items ih =>
      rw [iterate, List.length_cons, Cost.times_succ, Cost.add_assoc]
      apply costs_seq (costs_pushFrame _ _ _ _)
      intro _
      apply costs_seq hbody
      intro _
      rw [← Cost.zero_add (Cost.times _ _)]
      exact costs_seq costs_popFrame fun _ => ih (index + 1)

/-! ### Code -/

variable {call : Option Span → String → Nat → Exec σ Unit}

/-- Instructions, once their iterations are matched, cost this. -/
def Costed (c : Setting σ) (call : Option Span → String → Nat → Exec σ Unit)
    (is : List Instruction) (k : Cost) : Prop :=
  ∃ code : Code, code.toInstructions = is ∧ Costs (runCode c call code) k

theorem costed_nil : Costed c call [] 0 :=
  ⟨.done, rfl, costs_pure ()⟩

theorem costed_append {first second : List Instruction} (hfirst : Costed c call first k)
    (hsecond : Costed c call second k') : Costed c call (first ++ second) (k + k') := by
  rcases hfirst with ⟨firstCode, rfl, hfirst⟩
  rcases hsecond with ⟨secondCode, rfl, hsecond⟩
  refine ⟨firstCode.append secondCode, Code.toInstructions_append _ _, ?_⟩
  rw [runCode_append]
  exact costs_seq hfirst fun _ => hsecond

theorem costed_one {action : Action} {span : Option Span}
    (haction : Costs (perform c call span action) k) :
    Costed c call [.of action span] (⟨1, 0, 0⟩ + k) := by
  refine ⟨.step action span .done, rfl, ?_⟩
  rw [runCode]
  apply costs_seq (costs_logStep (.of action span))
  intro _
  rw [← Cost.add_zero k]
  exact costs_seq haction fun _ => costs_pure ()

/-- The body is run once for each item, and the end is logged once. -/
theorem costed_loop {array : String} {opening closing : Option Span} {body : List Instruction}
    (hbody : Costed c call body k) :
    Costed c call (⟨.beginArrayIter array, opening⟩ :: (body ++ [⟨.endArrayIter, closing⟩]))
      (⟨2, 0, 1⟩ + .times (c.environment.count array) (.frame + k)) := by
  rcases hbody with ⟨bodyCode, rfl, hbody⟩
  refine ⟨.loop opening array bodyCode closing .done, rfl, ?_⟩
  cases hitems : c.environment.findArray array with
  | none =>
      rw [runCode_loop_of_none _ _ _ _ _ hitems]
      intro s a s' h
      cases hr : logStep c ⟨.beginArrayIter array, opening⟩ s with
      | ok _ between =>
          rw [bind_of_ok hr] at h
          cases h
      | error fault between =>
          rw [bind_of_error hr] at h
          cases h
  | some items =>
      have hcost : (⟨2, 0, 1⟩ : Cost) + .times (c.environment.count array) (.frame + k) =
          .logged ⟨.beginArrayIter array, opening⟩ + (0 + (.times items.length (.frame + k) +
            (.logged ⟨.endArrayIter, closing⟩ + 0))) := by
        ext <;> simp [Environment.count, hitems, Cost.logged] <;> omega
      rw [runCode_loop_of_some _ _ _ _ _ hitems, hcost]
      apply costs_seq (costs_logStep _)
      intro _
      apply costs_seq (costs_emit _)
      intro _
      apply costs_seq (costs_iterate hbody array opening 0 items)
      intro _
      exact costs_seq (costs_logStep _) fun _ => costs_pure ()

/-- Instructions have one code only. -/
theorem costs_fragment {is : List Instruction} (h : Costed c call is k) :
    Costs (runFragment c call is) k := by
  rcases h with ⟨code, rfl, hcode⟩
  rw [runFragment, Code.ofInstructions_toInstructions]
  exact hcode

end Exec

/-! ## Compiled code -/

namespace Action

/-- The action opens no frame and calls no macro. -/
def Quiet : Action → Prop
  | pushScope | beginMacroCall _ _ => False
  | _ => True

end Action

theorem Operand.quiet_of_lower {o : Operand} {is : List Instruction} (h : o.lower = .ok is) :
    ∀ i ∈ is, ∃ action span, i = .of action span ∧ action.Quiet := by
  cases o with
  | identifier span name =>
      cases h
      exact List.forall_mem_singleton.mpr ⟨_, _, rfl, trivial⟩
  | string span raw =>
      simp only [Operand.lower] at h
      split at h
      · cases h
        rw [List.forall_mem_map]
        intro piece _
        cases piece with
        | text start stop value => exact ⟨_, _, rfl, trivial⟩
        | interpolation start stop name => exact ⟨_, _, rfl, trivial⟩
      · cases h

theorem Block.macroSize_of_resolves {b : Block} {macros : MacroTable} {name : String}
    (h : b.Resolves macros name) :
    ∃ m, macros.get? b.index name = some m ∧ (∃ o : Operand, o.lower = .ok m.pattern) ∧
      (∃ o : Operand, o.lower = .ok m.body) ∧
      b.macroSize name = m.pattern.length + m.body.length := by
  rcases h with ⟨pattern, body, m, hfind, hm, _, _, hpattern, hbody⟩
  refine ⟨m, hm, ⟨pattern, hpattern⟩, ⟨body, hbody⟩, ?_⟩
  rw [macroSize, hfind, ← Operand.size_of_lower hpattern, ← Operand.size_of_lower hbody]

namespace Exec

variable {σ : Type} {c : Setting σ} {call : Option Span → String → Nat → Exec σ Unit}

theorem costs_quiet {action : Action} (h : action.Quiet) (span : Option Span) :
    Costs (perform c call span action) 0 := by
  cases action with
  | emitLiteral text => exact costs_write text
  | emitVar name => exact costs_seq (costs_lookup name span) costs_write
  | beginMacroCall name block => exact h.elim
  | endMacroCall => exact costs_popFrame
  | pushScope => exact h.elim
  | popScope => exact costs_popFrame
  | beginCapture => exact costs_beginCapture
  | endCapture name => exact costs_seq costs_endCapture (costs_bind name)
  | comment text => exact costs_pure ()
  | nop => exact costs_fail _ _

theorem costed_quiet (action : Action) (h : action.Quiet) (span : Option Span) :
    Costed c call [.of action span] ⟨1, 0, 0⟩ :=
  costed_one (costs_quiet h span)

theorem costed_quiets {is : List Instruction}
    (h : ∀ i ∈ is, ∃ action span, i = .of action span ∧ action.Quiet) :
    Costed c call is ⟨is.length, 0, 0⟩ := by
  induction is with
  | nil => exact costed_nil
  | cons i is ih =>
      rcases List.forall_mem_cons.mp h with ⟨⟨action, span, rfl, haction⟩, hrest⟩
      have hcost : (⟨(Instruction.of action span :: is).length, 0, 0⟩ : Cost) =
          ⟨1, 0, 0⟩ + ⟨is.length, 0, 0⟩ := by
        ext <;> simp [Nat.add_comm]
      rw [hcost]
      exact costed_append (costed_quiet action haction span) (ih hrest)

theorem costed_operand {o : Operand} {is : List Instruction} (h : o.lower = .ok is) :
    Costed c call is ⟨o.size, 0, 0⟩ := by
  rw [Operand.size_of_lower h]
  exact costed_quiets (Operand.quiet_of_lower h)

theorem costs_callMacro {macros : MacroTable} {block : Nat} {name : String} {m : Macro}
    {pattern body : Cost} (hm : macros.get? block name = some m)
    (hpattern : ∀ depth, Costed c (callMacro c macros depth) m.pattern pattern)
    (hbody : ∀ depth, Costed c (callMacro c macros depth) m.body body) (depth : Nat)
    (span : Option Span) :
    Costs (callMacro c macros depth span name block) (pattern + (.frame + body)) := by
  cases depth with
  | zero =>
      intro s a s' h
      cases h
  | succ depth =>
      rw [callMacro, hm, ← Cost.zero_add (pattern + _)]
      apply costs_seq costs_beginCapture
      intro _
      apply costs_seq (costs_fragment (hpattern depth))
      intro _
      rw [← Cost.zero_add (Cost.frame + body)]
      apply costs_seq costs_endCapture
      intro text
      rw [← Cost.zero_add (Cost.frame + body)]
      apply costs_seq (costs_emit _)
      intro _
      exact costs_seq (costs_pushFrame _ _ _ _) fun _ => costs_fragment (hbody depth)

theorem costed_call {macros : MacroTable} {b : Block} {target : MacroRef}
    (hresolves : b.Resolves macros target.name) (depth : Nat) :
    Costed c (callMacro c macros depth) (target.lower b.index)
      ⟨2 + b.macroSize target.name, 1, 0⟩ := by
  rcases Block.macroSize_of_resolves hresolves with
    ⟨m, hm, ⟨pattern, hpattern⟩, ⟨body, hbody⟩, hsize⟩
  have hcost : (⟨2 + b.macroSize target.name, 1, 0⟩ : Cost) =
      ⟨1, 0, 0⟩ + (⟨pattern.size, 0, 0⟩ + (.frame + ⟨body.size, 0, 0⟩)) + ⟨1, 0, 0⟩ := by
    rw [hsize, Operand.size_of_lower hpattern, Operand.size_of_lower hbody]
    ext <;> simp [Cost.frame]
    omega
  have hcall : Costs (perform c (callMacro c macros depth) target.span
      (.beginMacroCall target.name b.index))
      (⟨pattern.size, 0, 0⟩ + (.frame + ⟨body.size, 0, 0⟩)) :=
    costs_callMacro hm (fun _ => costed_operand hpattern) (fun _ => costed_operand hbody)
      depth target.span
  have hend : Costed c (callMacro c macros depth) [.of .endMacroCall target.span] ⟨1, 0, 0⟩ :=
    costed_quiet .endMacroCall trivial _
  rw [hcost]
  exact costed_append (costed_one hcall) hend

theorem costed_scalar_pipe {macros : MacroTable} {b : Block} {target : MacroRef}
    (hresolves : b.Resolves macros target.name) {o : Operand} {is : List Instruction}
    (hlower : o.lower = .ok is) (depth : Nat) :
    Costed c (callMacro c macros depth)
      ([.of .pushScope o.span, .of .beginCapture o.span] ++ is ++
        [.of (.endCapture Binding.item) o.span, .of .beginCapture o.span,
          .of (.emitLiteral "0") o.span, .of (.endCapture Binding.index) o.span] ++
        target.lower b.index ++ [.of .popScope o.span])
      ⟨9 + o.size + b.macroSize target.name, 2, 0⟩ := by
  have hopen : Costed c (callMacro c macros depth) [.of .pushScope o.span]
      (⟨1, 0, 0⟩ + .frame) :=
    costed_one (costs_pushFrame _ _ _ _)
  have hcapture : Costed c (callMacro c macros depth) [.of .beginCapture o.span] ⟨1, 0, 0⟩ :=
    costed_quiet .beginCapture trivial _
  have hbind : Costed c (callMacro c macros depth)
      [.of (.endCapture Binding.item) o.span, .of .beginCapture o.span,
        .of (.emitLiteral "0") o.span, .of (.endCapture Binding.index) o.span] ⟨4, 0, 0⟩ :=
    costed_quiets (by simp [Instruction.of, Action.Quiet])
  have hclose : Costed c (callMacro c macros depth) [.of .popScope o.span] ⟨1, 0, 0⟩ :=
    costed_quiet .popScope trivial _
  have h := costed_append (costed_append (costed_append (costed_append
    (costed_append hopen hcapture) (costed_operand hlower)) hbind)
    (costed_call hresolves depth)) hclose
  have hcost : (⟨9 + o.size + b.macroSize target.name, 2, 0⟩ : Cost) =
      ⟨1, 0, 0⟩ + .frame + ⟨1, 0, 0⟩ + ⟨o.size, 0, 0⟩ + ⟨4, 0, 0⟩ +
        ⟨2 + b.macroSize target.name, 1, 0⟩ + ⟨1, 0, 0⟩ := by
    ext <;> simp [Cost.frame]
    omega
  rw [hcost]
  exact h

theorem costed_expression {macros : MacroTable} {b : Block} {e : Expression}
    {is : List Instruction} (hlower : e.lower b.index = .ok is)
    (hresolves : ∀ target, (Statement.expression e).call? = some target →
      b.Resolves macros target.name) (depth : Nat) :
    Costed c (callMacro c macros depth) is (b.expressionCost c.environment e) := by
  cases e with
  | plain source =>
      cases source with
      | operand o => exact costed_operand hlower
      | array span name =>
          cases hlower
          have hbody : Costed c (callMacro c macros depth)
              [.of (.emitVar Binding.item) (some span)] ⟨1, 0, 0⟩ :=
            costed_quiet (.emitVar Binding.item) trivial _
          have hcost : b.expressionCost c.environment (.plain (.array span name)) =
              ⟨2, 0, 1⟩ + .times (c.environment.count name) (.frame + ⟨1, 0, 0⟩) := by
            ext <;> simp [Block.expressionCost, Cost.times, Cost.frame]
          rw [hcost]
          exact costed_loop hbody
  | pipe source target =>
      cases source with
      | operand o =>
          rcases ok_of_bind hlower with ⟨value, hvalue, hend⟩
          cases hend
          exact costed_scalar_pipe (hresolves target rfl) hvalue depth
      | array span name =>
          cases hlower
          have hcost : b.expressionCost c.environment (.pipe (.array span name) target) =
              ⟨2, 0, 1⟩ + .times (c.environment.count name)
                (.frame + ⟨2 + b.macroSize target.name, 1, 0⟩) := by
            ext <;> simp [Block.expressionCost, Cost.times, Cost.frame, Nat.mul_comm]
          rw [hcost]
          exact costed_loop (costed_call (hresolves target rfl) depth)

/-! ### Statements, items and documents -/

theorem costed_statement {macros : MacroTable} {b : Block} {s : Statement}
    {is : List Instruction} (hlower : s.lower b.index = .ok is)
    (hresolves : ∀ target, s.call? = some target → b.Resolves macros target.name)
    (depth : Nat) :
    Costed c (callMacro c macros depth) is (b.statementCost c.environment s) := by
  cases s with
  | comment span text =>
      cases hlower
      exact costed_quiet (.comment text) trivial _
  | definition span name pattern body =>
      cases hlower
      exact costed_nil
  | expression e => exact costed_expression hlower hresolves depth

theorem costed_statements {macros : MacroTable} {b : Block} {ss : List Statement}
    {parts : List (List Instruction)}
    (hlower : List.Forall₂ (fun s part => s.lower b.index = .ok part) ss parts)
    (hresolved : ∀ s ∈ ss, ∀ target, s.call? = some target → b.Resolves macros target.name)
    (depth : Nat) :
    Costed c (callMacro c macros depth) parts.flatten
      (.total (ss.map (b.statementCost c.environment))) := by
  induction hlower with
  | nil => exact costed_nil
  | @cons s part ss parts hs _ ih =>
      apply costed_append
      · exact costed_statement hs (hresolved s List.mem_cons_self) depth
      · exact ih fun s' hs' => hresolved s' (List.mem_cons_of_mem _ hs')

theorem costed_item {macros : MacroTable} {item : Item} {part : List Macro × List Instruction}
    (hlower : item.lower = .ok part) (hresolved : ∀ b, item = .block b → b.Resolved macros)
    (depth : Nat) : Costed c (callMacro c macros depth) part.2 (item.cost c.environment) := by
  cases item with
  | hostText span text =>
      cases hlower
      rw [Item.cost]
      by_cases htext : text = ""
      · simp only [htext, if_true]
        exact costed_nil
      · simp only [htext, if_false]
        exact costed_quiet (.emitLiteral text) trivial _
  | block b =>
      rcases (Block.lowered_of_lower hlower).code with ⟨parts, hparts, hcode⟩
      rw [hcode]
      exact costed_statements hparts (hresolved b rfl) depth

theorem costed_items {macros : MacroTable} {items : List Item}
    {parts : List (List Macro × List Instruction)}
    (hlower : List.Forall₂ (fun item part => item.lower = .ok part) items parts)
    (hresolved : ∀ b, Item.block b ∈ items → b.Resolved macros) (depth : Nat) :
    Costed c (callMacro c macros depth) (parts.map Prod.snd).flatten
      (.total (items.map (Item.cost c.environment))) := by
  induction hlower with
  | nil => exact costed_nil
  | @cons item part items parts hitem _ ih =>
      apply costed_append
      · apply costed_item hitem
        rintro b rfl
        exact hresolved b List.mem_cons_self
      · exact ih fun b hb => hresolved b (List.mem_cons_of_mem _ hb)

theorem costs_program {document : Document} {p : Program} (hlower : document.lower = .ok p)
    (hindex : (document.blocks.map Block.index).Nodup) :
    Costs (program c p) (document.cost c.environment) := by
  rcases Document.parts_of_lower hlower with ⟨parts, hparts, hinstructions, _⟩
  have hitems : Costed c (callMacro c p.macros (callDepth p.macros)) p.instructions
      (document.cost c.environment) := by
    rw [hinstructions]
    apply costed_items hparts
    intro b hb
    exact Document.resolved_of_lower hlower hindex hb
  rw [program, ← Cost.zero_add (document.cost _)]
  apply costs_seq (costs_emit _)
  intro _
  rw [← Cost.add_zero (document.cost _)]
  exact costs_seq (costs_fragment hitems) fun _ => costs_emit _

end Exec

/-! ## Runs -/

namespace Outcome

variable {σ : Type}

/-- The run has logged and opened as much as this, and numbered its steps from zero. -/
structure Spends (o : Outcome σ) (k : Cost) : Prop where
  steps : o.state.log.size = k.steps
  indices : o.state.log.toList.map LogEntry.index = List.range k.steps
  frames : o.state.frameCount = k.frames
  loops : o.state.loops = k.loops

end Outcome

namespace Program

variable {σ : Type} {c : Setting σ}

theorem run_costs {tokens : List Token} {document : Document} {p : Program}
    (hdocument : Document.ofTokens tokens = .ok document) (hlower : document.lower = .ok p)
    (c : Setting σ) (world : σ) (hends : (p.run c world).error = none) :
    (p.run c world).Spends (document.cost c.environment) := by
  have hcosts := Exec.costs_program (c := c) hlower
    (Document.nodup_index_of_ofTokens hdocument) (State.initial world)
  have hindices := (orderly_run p c world).indices
  have hspent : (p.run c world).state.spent = document.cost c.environment := by
    rw [run] at hends ⊢
    split
    · rename_i s hresult
      rw [hcosts _ s hresult]
      exact Cost.zero_add _
    · rename_i fault s hresult
      rw [hresult] at hends
      simp only [Outcome.failed] at hends
      split at hends <;> cases hends
  have hsteps := congrArg Cost.steps hspent
  refine ⟨hsteps, ?_, congrArg Cost.frames hspent, congrArg Cost.loops hspent⟩
  rw [hindices, ← hsteps]
  rfl

/-- Two arrays, of which one is empty, and a macro that is called for each item and for a
string. -/
theorem run_costs_of_calls :
    let c : Setting Unit :=
      ⟨"m", ⟨[], [("a", ["1", "2"]), ("e", [])]⟩, Registry.empty, Sink.accepting, false⟩
    let tokens := tokenize
      ("x\x7b\x7b # c\n a[:]; e[:]; a[:] | ?m; \"v\" | ?m; " ++
        "@m \"$(_item_)!\" | \"<$(_)>\" \x7d\x7d")
    ∃ document p, Document.ofTokens tokens = .ok document ∧ document.lower = .ok p ∧
      (p.run c ()).error = none ∧
      document.cost c.environment =
        ⟨1 + 1 + (2 + 2) + (2 + 0) + (2 + 2 * (2 + 2 + 3)) + (9 + 1 + 2 + 3),
          2 + 0 + 2 * 2 + 2, 3⟩ ∧
      (p.run c ()).Spends (document.cost c.environment) := by
  intro c tokens
  have hcost : (Document.ofTokens tokens).map (Document.cost c.environment) =
      .ok ⟨39, 8, 3⟩ := by
    decide +kernel
  have hends : (ofTokens tokens).map (fun p => (p.run c ()).error) = .ok none := by
    decide +kernel
  cases hdocument : Document.ofTokens tokens with
  | error e =>
      rw [hdocument] at hcost
      cases hcost
  | ok document =>
      rw [hdocument] at hcost
      cases hlower : document.lower with
      | error e =>
          simp only [ofTokens, hdocument, hlower] at hends
          cases hends
      | ok p =>
          simp only [ofTokens, hdocument, hlower] at hends
          have hnone : (p.run c ()).error = none := Except.ok.inj hends
          exact ⟨document, p, rfl, hlower, hnone, Except.ok.inj hcost,
            run_costs hdocument hlower c () hnone⟩

end Program

end Stencil
