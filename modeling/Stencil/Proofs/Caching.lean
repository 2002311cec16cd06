import Stencil.Machine.Lasting

/-!
# Code that is kept

A machine keeps the code of the fragments it runs, and finds it again by their addresses.
As long as the code under each address is that of the fragment there, a run does what it
does when all fragments are matched anew.
-/

namespace Stencil
namespace Machine

variable {κ σ α β : Type}

/-! ## Instructions in a machine -/

/-- The result of instructions in a machine, which has come to keep `matched`. -/
def resume (m : Machine κ) (matched : List (κ × Code)) :
    EStateM.Result Fault (State σ) α → EStateM.Result Fault (Machine κ × Host σ) α
  | .ok a s => .ok a ({ m.keep s with matched := matched }, s.host)
  | .error fault s => .error fault ({ m.keep s with matched := matched }, s.host)

theorem resume_resume (m : Machine κ) (s : State σ) (between matched : List (κ × Code))
    (r : EStateM.Result Fault (State σ) α) :
    resume { m.keep s with matched := between } matched r = resume m matched r := by
  cases r with
  | ok a s' => rfl
  | error fault s' => rfl

theorem get_bind (f : Machine κ × Host σ → Running κ σ α) (m : Machine κ) (host : Host σ) :
    (get >>= f) (m, host) = f (m, host) (m, host) :=
  rfl

theorem macro?_of_program {m : Machine κ} {stored : Stored κ} (h : m.program = some stored)
    (block : Nat) (name : String) :
    m.macro? block name =
      (stored.program.macros.get? block name).map fun target => (stored, target) := by
  rw [macro?, h]
  rfl

variable [DecidableEq κ]

/-- What is kept under the address of a fragment is the code of that fragment. -/
def Sound (stored : Stored κ) (matched : List (κ × Code)) : Prop :=
  ∀ place instructions code, stored.program.fragment? place = some instructions →
    matched.lookup (stored.address place) = some code →
    Code.ofInstructions instructions = .ok code

/-- In a machine that runs a program, `x` does what `y` does, and only sound code is kept. -/
def Computes (stored : Stored κ) (x : Running κ σ α) (y : Exec σ α) : Prop :=
  ∀ m host, m.program = some stored → Sound stored m.matched →
    ∃ matched, Sound stored matched ∧ x (m, host) = resume m matched (y (m.state host))

variable {stored : Stored κ}

theorem sound_nil (stored : Stored κ) : Sound stored [] := by
  intro place instructions code _ hlookup
  cases hlookup

theorem Sound.cons {place : Place} {instructions : List Instruction} {code : Code}
    {matched : List (κ × Code)} (h : Sound stored matched)
    (hplace : stored.program.fragment? place = some instructions)
    (hcode : Code.ofInstructions instructions = .ok code) :
    Sound stored ((stored.address place, code) :: matched) := by
  intro other fragment found hother hlookup
  rw [Entries.lookup_cons] at hlookup
  by_cases haddress : stored.address other = stored.address place
  · rw [if_pos haddress] at hlookup
    cases hlookup
    rw [← stored.same hother hplace haddress]
    exact hcode
  · rw [if_neg haddress] at hlookup
    exact h other fragment found hother hlookup

theorem computes_lift (x : Exec σ α) : Computes stored (lift x) x := by
  intro m host _ hsound
  refine ⟨m.matched, hsound, ?_⟩
  rw [lift]
  cases x (m.state host) with
  | ok a s => rfl
  | error fault s => rfl

theorem computes_pure (a : α) : Computes stored (pure a : Running κ σ α) (pure a) := by
  intro m host _ hsound
  exact ⟨m.matched, hsound, rfl⟩

/-- Of what comes next, only that counts which comes after a result there can be. -/
theorem Computes.bind_of_ok {x : Running κ σ α} {y : Exec σ α} {f : α → Running κ σ β}
    {g : α → Exec σ β} (h : Computes stored x y)
    (hnext : ∀ a s s', y s = .ok a s' → Computes stored (f a) (g a)) :
    Computes stored (x >>= f) (y >>= g) := by
  intro m host hprogram hsound
  rcases h m host hprogram hsound with ⟨between, hbetween, hx⟩
  change ∃ matched, Sound stored matched ∧
    EStateM.bind x f (m, host) = resume m matched (EStateM.bind y g (m.state host))
  rw [EStateM.bind, EStateM.bind, hx]
  cases hy : y (m.state host) with
  | ok a s =>
      rcases hnext a _ s hy { m.keep s with matched := between } s.host hprogram hbetween with
        ⟨matched, hmatched, hf⟩
      refine ⟨matched, hmatched, ?_⟩
      rw [resume_resume] at hf
      exact hf
  | error fault s => exact ⟨between, hbetween, rfl⟩

theorem Computes.bind {x : Running κ σ α} {y : Exec σ α} {f : α → Running κ σ β}
    {g : α → Exec σ β} (h : Computes stored x y) (hnext : ∀ a, Computes stored (f a) (g a)) :
    Computes stored (x >>= f) (y >>= g) :=
  h.bind_of_ok fun a _ _ _ => hnext a

/-! ## Code -/

section Calls

variable (c : Setting σ) {call : Option Span → String → Nat → Running κ σ Unit}
  {call' : Option Span → String → Nat → Exec σ Unit}

theorem computes_perform (hcall : ∀ span name block,
      Computes stored (call span name block) (call' span name block))
    (span : Option Span) (action : Action) :
    Computes stored (perform c call span action) (Exec.perform c call' span action) := by
  cases action with
  | beginMacroCall name block => exact hcall span name block
  | emitLiteral text => exact computes_lift (Exec.write c text)
  | emitVar name => exact computes_lift (Exec.perform c call' span (.emitVar name))
  | endMacroCall => exact computes_lift Exec.popFrame
  | pushScope => exact computes_lift (Exec.pushFrame "<scope>" .scope span [])
  | popScope => exact computes_lift Exec.popFrame
  | beginCapture => exact computes_lift Exec.beginCapture
  | endCapture name => exact computes_lift (Exec.perform c call' span (.endCapture name))
  | comment text => exact computes_lift (pure ())
  | nop => exact computes_lift (Exec.perform c call' span .nop)

theorem computes_iterate (array : String) (span : Option Span) {body : Running κ σ Unit}
    {body' : Exec σ Unit} (hbody : Computes stored body body') (index : Nat)
    (items : List String) :
    Computes stored (iterate array span body index items)
      (Exec.iterate array span body' index items) := by
  induction items generalizing index with
  | nil => exact computes_pure ()
  | cons item items ih =>
      apply (computes_lift _).bind
      intro _
      apply hbody.bind
      intro _
      apply (computes_lift _).bind
      intro _
      exact ih (index + 1)

theorem computes_runCode (hcall : ∀ span name block,
      Computes stored (call span name block) (call' span name block)) (code : Code) :
    Computes stored (runCode c call code) (Exec.runCode c call' code) := by
  induction code with
  | done => exact computes_pure ()
  | step action span rest ih =>
      apply (computes_lift _).bind
      intro _
      apply (computes_perform c hcall span action).bind
      intro _
      exact ih
  | loop opening array body closing rest ihBody ihRest =>
      rw [runCode, Exec.runCode]
      apply (computes_lift _).bind
      intro _
      cases c.environment.findArray array with
      | none =>
          apply (computes_lift _).bind
          intro _
          apply (computes_lift _).bind
          intro _
          exact ihRest
      | some items =>
          apply (computes_lift _).bind
          intro _
          apply (computes_iterate array opening ihBody 0 items).bind
          intro _
          apply (computes_lift _).bind
          intro _
          exact ihRest

/-! ## Fragments -/

/-- The code of a fragment, matched anew. -/
def matching (instructions : List Instruction) : Exec σ Code :=
  match Code.ofInstructions instructions with
  | .ok code => pure code
  | .error fault => Exec.internal (.iteration fault) fault.span

theorem ofInstructions_of_matching {instructions : List Instruction} {code : Code}
    {s s' : State σ} (h : matching instructions s = .ok code s') :
    Code.ofInstructions instructions = .ok code := by
  rw [matching] at h
  cases hcode : Code.ofInstructions instructions with
  | ok found =>
      rw [hcode] at h
      cases h
      rfl
  | error fault =>
      rw [hcode] at h
      cases h

theorem runFragment_eq_matching (call' : Option Span → String → Nat → Exec σ Unit)
    (instructions : List Instruction) :
    Exec.runFragment c call' instructions =
      matching instructions >>= Exec.runCode c call' := by
  rw [Exec.runFragment, matching]
  cases Code.ofInstructions instructions with
  | ok code => rfl
  | error fault => rfl

section Code

variable {address : κ} {m : Machine κ}

theorem code_of_kept {code : Code} (h : m.matched.lookup address = some code)
    (instructions : List Instruction) (host : Host σ) :
    Machine.code address instructions (m, host) = .ok code (m, host) := by
  rw [Machine.code, get_bind]
  simp only [h]
  rfl

variable (h : m.matched.lookup address = none) {instructions : List Instruction} (host : Host σ)
include h

theorem code_of_matched {code : Code} (hcode : Code.ofInstructions instructions = .ok code) :
    Machine.code address instructions (m, host) =
      .ok code ({ m with matched := (address, code) :: m.matched }, host) := by
  rw [Machine.code, get_bind]
  simp only [h, hcode]
  rfl

theorem code_of_unmatched {fault : IterationFault}
    (hcode : Code.ofInstructions instructions = .error fault) :
    Machine.code address instructions (m, host) =
      lift (Exec.internal (.iteration fault) fault.span) (m, host) := by
  rw [Machine.code, get_bind]
  simp only [h, hcode]

end Code

/-- Code that is found is the code that the fragment is matched to. -/
theorem computes_code {place : Place} {instructions : List Instruction}
    (hplace : stored.program.fragment? place = some instructions) :
    Computes stored (code (stored.address place) instructions : Running κ σ Code)
      (matching instructions) := by
  intro m host hprogram hsound
  cases hlookup : m.matched.lookup (stored.address place) with
  | some code =>
      refine ⟨m.matched, hsound, ?_⟩
      rw [code_of_kept hlookup, matching, hsound place instructions code hplace hlookup]
      rfl
  | none =>
      rw [matching]
      cases hcode : Code.ofInstructions instructions with
      | ok code => exact ⟨_, hsound.cons hplace hcode, code_of_matched hlookup host hcode⟩
      | error fault =>
          rw [code_of_unmatched hlookup host hcode]
          exact computes_lift _ m host hprogram hsound

end Calls

/-- An executor of the fragments of a program executes each as the code of that fragment,
provided that calls do what calls do. -/
def Faithful (stored : Stored κ) (x : Executor κ σ) : Prop :=
  ∀ (c : Setting σ) (call : Option Span → String → Nat → Running κ σ Unit)
    (call' : Option Span → String → Nat → Exec σ Unit),
    (∀ span name block, Computes stored (call span name block) (call' span name block)) →
    ∀ place instructions, stored.program.fragment? place = some instructions →
      Computes stored (x c call (stored.address place) instructions)
        (Exec.runFragment c call' instructions)

theorem faithful_runFragment (stored : Stored κ) :
    Faithful stored (runFragment : Executor κ σ) := by
  intro c call call' hcall place instructions hplace
  rw [runFragment_eq_matching]
  exact (computes_code hplace).bind (computes_runCode c hcall)

/-! ## Programs -/

section Macros

variable (x : Executor κ σ) (c : Setting σ) (depth : Nat) (span : Option Span) {name : String}
  {block : Nat} {m : Machine κ}

omit [DecidableEq κ]

theorem callMacro_of_missing (h : m.macro? block name = none) (host : Host σ) :
    callMacro x c (depth + 1) span name block (m, host) =
      lift (Exec.breakDown (.missingMacro block name)) (m, host) := by
  rw [callMacro, get_bind]
  simp only [h]

theorem callMacro_of_found {target : Macro} (h : m.macro? block name = some (stored, target))
    (host : Host σ) :
    callMacro x c (depth + 1) span name block (m, host) =
      (do
        lift Exec.beginCapture
        x c (callMacro x c depth) (stored.address (.pattern block name)) target.pattern
        let pattern ← lift Exec.endCapture
        lift (Exec.emit c (.macroCall ⟨target.name, target.block, span, pattern⟩))
        lift (Exec.pushFrame ("?" ++ target.name) .call span [(Binding.pattern, pattern)])
        x c (callMacro x c depth) (stored.address (.body block name)) target.body :
        Running κ σ Unit) (m, host) := by
  rw [callMacro, get_bind]
  simp only [h]

end Macros

section Executor

variable {x : Executor κ σ} (hx : Faithful stored x) (c : Setting σ)
include hx

theorem computes_callMacro (depth : Nat) (span : Option Span) (name : String) (block : Nat) :
    Computes stored (callMacro x c depth span name block)
      (Exec.callMacro c stored.program.macros depth span name block) := by
  induction depth generalizing span name block with
  | zero => exact computes_lift _
  | succ depth ih =>
      intro m host hprogram hsound
      have hmacros := macro?_of_program hprogram block name
      rw [Exec.callMacro]
      cases hfound : stored.program.macros.get? block name with
      | none =>
          rw [hfound] at hmacros
          rw [callMacro_of_missing x c depth span hmacros]
          exact computes_lift _ m host hprogram hsound
      | some target =>
          rw [hfound] at hmacros
          rw [callMacro_of_found x c depth span hmacros]
          have hpattern : stored.program.fragment? (.pattern block name) = some target.pattern := by
            rw [Program.fragment?, hfound]
            rfl
          have hbody : stored.program.fragment? (.body block name) = some target.body := by
            rw [Program.fragment?, hfound]
            rfl
          apply (computes_lift _).bind _ m host hprogram hsound
          intro _
          apply (hx c _ _ ih _ _ hpattern).bind
          intro _
          apply (computes_lift _).bind
          intro pattern
          apply (computes_lift _).bind
          intro _
          apply (computes_lift _).bind
          intro _
          exact hx c _ _ ih _ _ hbody

theorem computes_execute :
    Computes stored (execute x c stored) (Exec.program c stored.program) := by
  apply (computes_lift _).bind
  intro _
  apply (hx c _ _ (computes_callMacro hx c _) _ _ rfl).bind
  intro _
  exact computes_lift _

end Executor

/-! ## Runs -/

/-- A run in a machine whose executor is faithful is the run of the program by itself.
Whatever the machine held before, it then holds what the run has left. -/
theorem runWith_eq {x : Executor κ σ} (registry : Registry σ) (sink : Sink) {stored : Stored κ}
    (hx : Faithful stored x) (m : Machine κ) (world : σ) :
    ∃ matched,
      let outcome := stored.program.run ⟨m.name, m.environment, registry, sink, m.verbose⟩ world
      m.runWith x registry sink stored world =
        ⟨outcome.error,
          { (m.clear sink stored).keep outcome.state with sink := none, matched := matched },
          outcome.state.host⟩ := by
  rcases computes_execute hx ⟨m.name, m.environment, registry, sink, m.verbose⟩
    (m.clear sink stored) (Host.initial world) rfl (sound_nil stored) with ⟨matched, _, hrun⟩
  refine ⟨matched, ?_⟩
  have hsetting : (m.clear sink stored).setting registry =
      ⟨m.name, m.environment, registry, sink, m.verbose⟩ := rfl
  have hstate : (m.clear sink stored).state (Host.initial world) = State.initial world := rfl
  rw [hstate] at hrun
  simp only [runWith, hsetting, Program.run, hrun]
  cases Exec.program ⟨m.name, m.environment, registry, sink, m.verbose⟩ stored.program
      (State.initial world) with
  | ok a s => rfl
  | error fault s => rfl

theorem run_eq (registry : Registry σ) (sink : Sink) (stored : Stored κ) (m : Machine κ)
    (world : σ) :
    ∃ matched,
      let outcome := stored.program.run ⟨m.name, m.environment, registry, sink, m.verbose⟩ world
      m.run registry sink stored world =
        ⟨outcome.error,
          { (m.clear sink stored).keep outcome.state with sink := none, matched := matched },
          outcome.state.host⟩ :=
  runWith_eq registry sink (faithful_runFragment stored) m world

end Machine
end Stencil
