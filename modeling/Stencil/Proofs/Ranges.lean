import Stencil.Proofs.Agenda
import Stencil.Proofs.Caching
import Stencil.Proofs.Matchings

/-!
# Ranges that are never left

A machine that executes instructions by positions does what a machine does that executes
code, whatever it is told to do when it has gone astray: it never does.  Instructions whose
brackets are not balanced fail before anything is done with them.
-/

namespace Stencil

open Brackets

/-- The end of a run, without the code that the machine has come to keep. -/
def Ending.forgetCode {κ σ : Type} (ending : Ending κ σ) : Ending κ σ :=
  { ending with machine := { ending.machine with matched := [] } }

theorem Ending.seen_of_forgetCode {κ σ : Type} {ending other : Ending κ σ}
    (h : ending.forgetCode = other.forgetCode) :
    ending.error = other.error ∧ ending.host = other.host ∧
      ending.machine.frames = other.machine.frames := by
  have herror := congrArg Ending.error h
  have hhost := congrArg Ending.host h
  have hframes := congrArg (fun e => e.machine.frames) h
  exact ⟨herror, hhost, hframes⟩

namespace Machine

variable {κ σ : Type} (stray : List Instruction → Nat → Running κ σ Unit)

section Range

variable (c : Setting σ) (call : Option Span → String → Nat → Running κ σ Unit)
  {instructions : List Instruction} {table : List (Nat × Nat)}

/-- From the first instruction of code to the last, the range is executed as the code is. -/
theorem runRange_code (code : Code) {position stop : Nat}
    (hpart : PartAt instructions position code.toInstructions)
    (hstop : position + code.toInstructions.length = stop)
    (htable : ∀ b e, (b, e) ∈ code.table position → table.lookup b = some e) :
    runRange c stray call instructions table position stop = runCode c call code := by
  induction code generalizing position stop with
  | done =>
      rw [runRange, if_neg (by simpa [Code.toInstructions] using hstop.ge), runCode]
  | step action span rest ih =>
      rw [Code.toInstructions, List.length_cons] at hstop
      have hafter : runRange c stray call instructions table (position + 1) stop =
          runCode c call rest := ih hpart.tail (by omega) htable
      rw [runRange, if_pos (by omega), hpart.head]
      simp only [Instruction.of, hafter]
      rfl
  | loop opening array body closing rest ihBody ihRest =>
      rcases hpart.loop with ⟨hbegin, hbody, hend, hrest⟩
      rw [Code.toInstructions, List.length_cons, List.length_append, List.length_cons] at hstop
      have hclose : table.lookup position = some (position + 1 + body.toInstructions.length) :=
        htable _ _ (List.mem_append_right _ List.mem_cons_self)
      have hinside : runRange c stray call instructions table (position + 1)
          (position + 1 + body.toInstructions.length) = runCode c call body := by
        apply ihBody hbody rfl
        intro b e hmem
        exact htable b e (List.mem_append_right _ (List.mem_cons_of_mem _ hmem))
      have hafter : runRange c stray call instructions table
          (position + 1 + body.toInstructions.length + 1) stop = runCode c call rest := by
        apply ihRest hrest (by omega)
        intro b e hmem
        exact htable b e (List.mem_append_left _ hmem)
      rw [runRange, if_pos (by omega), hbegin]
      simp only [hclose, hend, hinside, hafter]
      rw [if_pos (by omega)]
      rfl

end Range

variable [DecidableEq κ]

/-- The table of kept code is that of the fragment it is kept for. -/
theorem faithful_runWhole (stored : Stored κ) :
    Faithful stored (runWhole stray : Executor κ σ) := by
  intro c call call' hcall place instructions hplace
  rw [runFragment_eq_matching]
  apply (computes_code hplace).bind_of_ok
  intro code _ _ hmatching
  have hcode := Code.toInstructions_of_ofInstructions (ofInstructions_of_matching hmatching)
  subst hcode
  have hpart := partAt_zero code.toInstructions
  rw [runRange_code stray c call code hpart (Nat.zero_add _)
    fun b e hmem => lookup_of_mem_table hpart hmem]
  exact computes_runCode c hcall code

/-- Wherever a machine would go that is astray, a run by positions ends as a run does. -/
theorem runByPositions_eq (registry : Registry σ) (sink : Sink) (stored : Stored κ)
    (m : Machine κ) (world : σ) :
    (m.runByPositions stray registry sink stored world).forgetCode =
      (m.run registry sink stored world).forgetCode := by
  rcases run_eq registry sink stored m world with ⟨matched, hrun⟩
  rcases runWith_eq registry sink (faithful_runWhole stray stored) m world with
    ⟨matched', hpositions⟩
  have hforget := congrArg Ending.forgetCode hpositions
  rw [hrun]
  exact hforget

end Machine

/-! ## Instructions with a fault -/

section Faults

variable {σ : Type} {is : List Instruction} {fault : IterationFault}

theorem Exec.runFragment_of_fault (h : Matching.ofInstructions is = .error fault) (c : Setting σ)
    (call : Option Span → String → Nat → Exec σ Unit) (s : State σ) :
    runFragment c call is s =
      .error (.error ⟨.internal (.iteration fault), fault.span, none⟩) s := by
  rw [runFragment, Matching.code_of_error h]
  rfl

/-- The run fails in the state in which it has come to the instructions. -/
theorem Program.raises_of_fault {p : Program} {c : Setting σ} {world : σ} {depth : Nat}
    {rest : List Task} {s : State σ} (h : Matching.ofInstructions is = .error fault)
    (hreaches : p.Reaches c world (.fragment depth is :: rest) s) :
    p.Raises c world (.machine ⟨.internal (.iteration fault), fault.span, none⟩) s :=
  ⟨.fragment depth is, rest, s, hreaches, .fragment depth s (Matching.code_of_error h)⟩

end Faults

/-! ## Iterations are matched -/

/-- Instructions are matched if and only if their brackets are balanced, each beginning then
with the end that closes it; otherwise the fault is the first end that has nothing to end, or
else the last beginning that is left open.  The code that is executed has the same table or
fault.  Instructions with a fault fail in the state in which a run comes to them, and
execution by positions is never astray. -/
theorem Machine.iterations_matched {κ σ : Type} [DecidableEq κ] (is : List Instruction)
    (stray : List Instruction → Nat → Running κ σ Unit) (registry : Registry σ) (sink : Sink)
    (stored : Stored κ) (m : Machine κ) (world : σ) :
    Matching.ofInstructions is = Code.table 0 <$> Code.ofInstructions is ∧
    ((∃ table, Matching.ofInstructions is = .ok table) ↔ Balanced is) ∧
    (∀ table, Matching.ofInstructions is = .ok table → Matches is table) ∧
    (∀ fault, Matching.ofInstructions is = .error fault →
      Faulty is fault ∧
      (∀ (c : Setting σ) (call : Option Span → String → Nat → Exec σ Unit) (s : State σ),
        Exec.runFragment c call is s =
          .error (.error ⟨.internal (.iteration fault), fault.span, none⟩) s) ∧
      ∀ (p : Program) (c : Setting σ) (depth : Nat) (rest : List Task) (s : State σ),
        p.Reaches c world (.fragment depth is :: rest) s →
        p.run c world =
          .failed c (.error ⟨.internal (.iteration fault), fault.span, none⟩) s) ∧
    (m.runByPositions stray registry sink stored world).forgetCode =
      (m.run registry sink stored world).forgetCode := by
  refine ⟨Matching.ofInstructions_eq is, Matching.exists_table_iff,
    fun table => Matching.matches_of_ok, ?_,
    runByPositions_eq stray registry sink stored m world⟩
  intro fault herror
  refine ⟨Matching.faulty_of_error herror, Exec.runFragment_of_fault herror, ?_⟩
  intro p c depth rest s hreaches
  exact Program.run_of_raises (Program.raises_of_fault herror hreaches)

/-- Iterations one in the other, around a scope that is not closed, and an end too many. -/
theorem Machine.iterations_matched_nested :
    let nested : List Instruction :=
      [⟨.beginArrayIter "a", none⟩, .of .pushScope none, ⟨.beginArrayIter "b", none⟩,
        .of (.emitVar Binding.item) none, ⟨.endArrayIter, none⟩, ⟨.endArrayIter, none⟩]
    let tooMany : List Instruction := nested ++ [⟨.endArrayIter, none⟩]
    let registry : Registry Nat := ⟨fun _ => [], [], []⟩
    let m : Machine Place := .new "m" ⟨[], [("a", ["1", "2"]), ("b", ["x"])]⟩ false
    let lost : List Instruction → Nat → Running Place Nat Unit :=
      fun _ _ => lift (Exec.breakDown .noOpenCapture)
    let c : Setting Nat := ⟨m.name, m.environment, registry, Sink.accepting, m.verbose⟩
    let p : Program := ⟨tooMany, ⟨[]⟩⟩
    let ending := m.runByPositions lost registry Sink.accepting (Stored.apart ⟨nested, ⟨[]⟩⟩) 0
    (Balanced nested ∧ Closes nested 0 5 ∧ Closes nested 2 4) ∧
      (ending.error = none ∧ ending.host.written = #["x", "x"] ∧
        ending.machine.frames.length = 2) ∧
      p.Reaches c 0 [.fragment (Exec.callDepth p.macros) tooMany, .announce .programEnd]
        (State.initial 0) ∧
      ¬Balanced tooMany ∧
      p.run c 0 =
        .failed c (.error ⟨.internal (.iteration (.endWithoutBegin none)), none, none⟩)
          (State.initial 0) := by
  intro nested tooMany registry m lost c p ending
  have hnested : Matching.ofInstructions nested = .ok [(0, 5), (2, 4)] := by rfl
  have htooMany : Matching.ofInstructions tooMany = .error (.endWithoutBegin none) := by rfl
  rcases iterations_matched nested lost registry Sink.accepting
      (Stored.apart ⟨nested, ⟨[]⟩⟩) m 0 with
    ⟨_, hbalanced, hmatches, _, hrun⟩
  rcases iterations_matched tooMany lost registry Sink.accepting
      (Stored.apart ⟨nested, ⟨[]⟩⟩) m 0 with
    ⟨_, hbalanced', _, hfails, _⟩
  have hcloses := (hmatches _ hnested).closes
  have hreaches : p.Reaches c 0
      [.fragment (Exec.callDepth p.macros) tooMany, .announce .programEnd] (State.initial 0) :=
    .step (.announce rfl) (.refl _ _)
  refine ⟨⟨hbalanced.mp ⟨_, hnested⟩, (hcloses 0 5).mp rfl, (hcloses 2 4).mp rfl⟩, ?_, hreaches,
    ?_, (hfails _ htooMany).2.2 p c _ _ _ hreaches⟩
  · have hcode : let ending := m.run registry Sink.accepting (Stored.apart ⟨nested, ⟨[]⟩⟩) 0
        ending.error = none ∧ ending.host.written = #["x", "x"] ∧
          ending.machine.frames.length = 2 := by
      decide +kernel
    rcases Ending.seen_of_forgetCode hrun with ⟨herror, hhost, hframes⟩
    rw [herror, hhost, hframes]
    exact hcode
  · rw [← hbalanced', htooMany]
    rintro ⟨table, htable⟩
    cases htable

end Stencil
