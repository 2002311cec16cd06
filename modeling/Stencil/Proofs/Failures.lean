import Stencil.Proofs.Calls
import Stencil.Proofs.Throwing

/-!
# How runs fail

Whatever is raised in a run has one of a few origins: a rule of the machine, a
hook, or something outside of both.  It leaves the run as a runtime error of its
own, as a failure of the extension, or as a breakdown of the machine, and with the
index of the last step, unless a listener for errors fails in its turn.
-/

namespace Stencil

variable {σ : Type} {c : Setting σ} {macros : MacroTable} {s s' : State σ} {x : Failure}

namespace Failure

/-- Why something is raised in the state `s`. -/
inductive Origin (c : Setting σ) (macros : MacroTable) (s : State σ) : Failure → Prop where
  | undefinedVariable {name : String} (span : Option Span)
      (h : (ScopeStack.lookup name s.frames <|> c.environment.findVariable name) = none) :
      Origin c macros s (machine ⟨.undefinedVariable name, span, none⟩)
  | undefinedArray {array : String} (span : Option Span)
      (h : c.environment.findArray array = none) :
      Origin c macros s (machine ⟨.undefinedArray array, span, none⟩)
  | underflow (h : s.frames = []) :
      Origin c macros s (machine ⟨.internal (.scope .underflow), none, none⟩)
  | bindOutside (name : String) (h : s.frames = []) :
      Origin c macros s (machine ⟨.internal (.scope (.bindOutside name)), none, none⟩)
  | unmatched {is : List Instruction} {fault : IterationFault}
      (h : Code.ofInstructions is = .error fault) :
      Origin c macros s (machine ⟨.internal (.iteration fault), fault.span, none⟩)
  | unknown (span : Option Span) :
      Origin c macros s
        (machine ⟨.internal (.unknownInstruction Action.nop.opcode), span, none⟩)
  | thrown {point : HookPoint} {e : HookError} (h : c.registry.Throws c.machine point e) :
      Origin c macros s (handler point e)
  | sinkRefused {text reason : String} (h : c.sink s.host.written text = some reason) :
      Origin c macros s (breakdown (.sinkRefused reason))
  | missingMacro {block : Nat} {name : String} (h : macros.get? block name = none) :
      Origin c macros s (breakdown (.missingMacro block name))
  | noOpenCapture (h : s.captures = []) : Origin c macros s (breakdown .noOpenCapture)
  | callsTooDeep (h : ¬macros.Acyclic) : Origin c macros s (breakdown .callsTooDeep)

/-- The runtime error that leaves the machine for what was raised. -/
def error (lastSpan : Option Span) : Failure → RuntimeError
  | machine e => e
  | handler _ (.runtime e) => e
  | handler point e => ⟨.extension point e.message, lastSpan, none⟩
  | breakdown b => ⟨.internal (.breakdown b.text), lastSpan, none⟩

theorem toError_toFault (lastSpan : Option Span) (x : Failure) :
    (x.toFault lastSpan).toError lastSpan = x.error lastSpan := by
  cases x with
  | machine e => rfl
  | handler point e => cases e <;> rfl
  | breakdown b => rfl

end Failure

theorem Task.origin_of_fails {task : Task} (h : Fails c macros task s x s')
    (hdeep : x = .breakdown .callsTooDeep → ¬macros.Acyclic) : x.Origin c macros s' := by
  cases h with
  | announce h => exact .thrown (Registry.throws_of_emit h)
  | rules h => exact .thrown (Registry.throws_of_afterStep h)
  | filter h => exact .thrown (Registry.throws_of_filterOutput h)
  | deliver h => exact .sinkRefused h
  | emitVar depth span h => exact .undefinedVariable span h
  | tooDeep span name block s => exact .callsTooDeep (hdeep rfl)
  | missing depth span s h => exact .missingMacro h
  | endCapture depth span name h => exact .noOpenCapture h
  | nop depth span s => exact .unknown span
  | bind name text h => exact .bindOutside name h
  | leave h => exact .underflow h
  | loop depth opening body s h => exact .undefinedArray opening h
  | fragment depth s h => exact .unmatched h
  | enter depth span m h => exact .noOpenCapture h

theorem Program.origin_of_raises {p : Program} {world : σ} (h : p.Raises c world x s) :
    x.Origin c p.macros s := by
  have hdeep : x = .breakdown .callsTooDeep → ¬p.macros.Acyclic := by
    intro hx hacyclic
    exact ne_tooDeep_of_raises hacyclic h hx
  rcases h with ⟨task, rest, before, _, hfails⟩
  exact Task.origin_of_fails hfails hdeep

/-! ## What is reported -/

/-- The instruction logged last has that span; there is none if nothing is logged. -/
inductive LastSpan (log : Array LogEntry) : Option Span → Prop where
  | unlogged (h : log.toList = []) : LastSpan log none
  | logged {before : List LogEntry} {entry : LogEntry} (h : log.toList = before ++ [entry]) :
      LastSpan log entry.instruction.span

/-- The error that comes of what was raised after the steps in `log`.  Errors of the machine
stay as they are, and so do those that handlers raise themselves; whatever else is raised
becomes an error of its own, at the last step. -/
inductive Failure.Becomes (log : Array LogEntry) : Failure → RuntimeError → Prop where
  | machine (e : RuntimeError) : Becomes log (machine e) e
  | runtime (point : HookPoint) (e : RuntimeError) : Becomes log (handler point (.runtime e)) e
  | extension (point : HookPoint) {e : HookError} {span : Option Span}
      (hother : ∀ r, e ≠ .runtime r) (hspan : LastSpan log span) :
      Becomes log (handler point e) ⟨.extension point e.message, span, none⟩
  | internal (b : Breakdown) {span : Option Span} (hspan : LastSpan log span) :
      Becomes log (breakdown b) ⟨.internal (.breakdown b.text), span, none⟩

/-- An error with the index that it has already, or else with that of the last step; without
any if there was no step. -/
inductive RuntimeError.Indexed (log : Array LogEntry) : RuntimeError → RuntimeError → Prop where
  | own {e : RuntimeError} {n : Nat} (h : e.stepIndex = some n) : Indexed log e e
  | last {e : RuntimeError} {before : List LogEntry} {entry : LogEntry}
      (h : e.stepIndex = none) (hlog : log.toList = before ++ [entry]) :
      Indexed log e ⟨e.cause, e.span, some entry.index⟩
  | unlogged {e : RuntimeError} (h : e.stepIndex = none) (hlog : log.toList = []) :
      Indexed log e e

section LastEntry

variable {log : Array LogEntry}

theorem back?_of_toList {before : List LogEntry} {entry : LogEntry}
    (h : log.toList = before ++ [entry]) : log.back? = some entry := by
  rw [← Array.getLast?_toList, h, List.getLast?_concat]

theorem toList_cases (log : Array LogEntry) :
    log.toList = [] ∧ log.back? = none ∨
      ∃ before entry, log.toList = before ++ [entry] ∧ log.back? = some entry := by
  rcases List.eq_nil_or_concat' log.toList with hnil | ⟨before, entry, hconcat⟩
  · refine .inl ⟨hnil, ?_⟩
    rw [← Array.getLast?_toList, hnil, List.getLast?_nil]
  · exact .inr ⟨before, entry, hconcat, back?_of_toList hconcat⟩

theorem lastSpan_iff {span : Option Span} :
    LastSpan s.log span ↔ span = s.lastSpan := by
  rw [State.lastSpan]
  rcases toList_cases s.log with ⟨hnil, hback⟩ | ⟨before, entry, hconcat, hback⟩
  · rw [hback]
    constructor
    · intro h
      cases h with
      | unlogged _ => rfl
      | logged hlogged => simp [hnil] at hlogged
    · rintro rfl
      exact .unlogged hnil
  · rw [hback]
    constructor
    · intro h
      cases h with
      | unlogged hnone => simp [hconcat] at hnone
      | logged hlogged =>
          cases (back?_of_toList hlogged).symm.trans hback
          rfl
    · rintro rfl
      exact .logged hconcat

theorem RuntimeError.indexed_iff {raised e : RuntimeError} :
    Indexed s.log raised e ↔ e = raised.stamp s.lastIndex := by
  rw [stamp, State.lastIndex]
  rcases raised with ⟨cause, span, _ | n⟩
  · rcases toList_cases s.log with ⟨hnil, hback⟩ | ⟨before, entry, hconcat, hback⟩
    · rw [hback]
      constructor
      · intro h
        cases h with
        | own hsome => cases hsome
        | last _ hlogged => simp [hnil] at hlogged
        | unlogged _ _ => rfl
      · rintro rfl
        exact .unlogged rfl hnil
    · rw [hback]
      constructor
      · intro h
        cases h with
        | own hsome => cases hsome
        | last _ hlogged =>
            cases (back?_of_toList hlogged).symm.trans hback
            rfl
        | unlogged _ hnone => simp [hconcat] at hnone
      · rintro rfl
        exact .last rfl hconcat
  · constructor
    · intro h
      cases h with
      | own _ => rfl
      | last hnone _ => cases hnone
      | unlogged hnone _ => cases hnone
    · rintro rfl
      exact .own rfl

theorem Failure.becomes_iff {e : RuntimeError} :
    x.Becomes s.log e ↔ e = x.error s.lastSpan := by
  cases x with
  | machine _ =>
      constructor
      · rintro ⟨⟩
        rfl
      · rintro rfl
        exact .machine _
  | breakdown b =>
      constructor
      · intro h
        cases h with
        | internal _ hspan =>
            rw [lastSpan_iff.mp hspan]
            rfl
      · rintro rfl
        exact .internal b (lastSpan_iff.mpr rfl)
  | handler point failure =>
      constructor
      · intro h
        cases h with
        | runtime => rfl
        | extension _ hother hspan =>
            rw [lastSpan_iff.mp hspan]
            cases failure with
            | runtime e => exact absurd rfl (hother e)
            | _ => rfl
      · rintro rfl
        cases failure with
        | runtime e => exact .runtime point e
        | _ => exact .extension point nofun (lastSpan_iff.mpr rfl)

end LastEntry

namespace Outcome

/-- The outcome of a run in which `x` was raised and the state `s` left: the error
for it, or the error of a listener that failed with `failure`. -/
inductive Reports (c : Setting σ) (s : State σ) (x : Failure) : Outcome σ → Prop where
  | told {raised e : RuntimeError} {host : Host σ} (hraised : x.Becomes s.log raised)
      (he : raised.Indexed s.log e)
      (h : c.registry.emit c.machine (.onError e) s.host = .ok () host) :
      Reports c s x ⟨some e, { s with host := host }⟩
  | replaced {raised e other : RuntimeError} {failure : HookError} {host : Host σ}
      (hraised : x.Becomes s.log raised) (he : raised.Indexed s.log e)
      (h : c.registry.emit c.machine (.onError e) s.host = .error failure host)
      (hother : (Failure.handler (.event .onError) failure).Becomes s.log other) :
      Reports c s x ⟨some other, { s with host := host }⟩

/-- The two ways of ending, with the errors as the machine computes them. -/
theorem reports_iff {outcome : Outcome σ} :
    Reports c s x outcome ↔
      (∃ host,
        c.registry.emit c.machine (.onError ((x.error s.lastSpan).stamp s.lastIndex)) s.host =
          .ok () host ∧
        outcome =
          ⟨some ((x.error s.lastSpan).stamp s.lastIndex), { s with host := host }⟩) ∨
      ∃ failure host,
        c.registry.emit c.machine (.onError ((x.error s.lastSpan).stamp s.lastIndex)) s.host =
          .error failure host ∧
        outcome = ⟨some ((Failure.handler (.event .onError) failure).error s.lastSpan),
          { s with host := host }⟩ := by
  constructor
  · intro h
    cases h with
    | told hraised he hok =>
        cases Failure.becomes_iff.mp hraised
        cases RuntimeError.indexed_iff.mp he
        exact .inl ⟨_, hok, rfl⟩
    | replaced hraised he herror hother =>
        cases Failure.becomes_iff.mp hraised
        cases RuntimeError.indexed_iff.mp he
        cases Failure.becomes_iff.mp hother
        exact .inr ⟨_, _, herror, rfl⟩
  · have hraised : x.Becomes s.log (x.error s.lastSpan) := Failure.becomes_iff.mpr rfl
    have he : (x.error s.lastSpan).Indexed s.log ((x.error s.lastSpan).stamp s.lastIndex) :=
      RuntimeError.indexed_iff.mpr rfl
    rintro (⟨host, hok, rfl⟩ | ⟨failure, host, herror, rfl⟩)
    · exact .told hraised he hok
    · exact .replaced hraised he herror (Failure.becomes_iff.mpr rfl)

theorem reports_failed (c : Setting σ) (s : State σ) (x : Failure) :
    Reports c s x (failed c (x.toFault s.lastSpan) s) := by
  rw [reports_iff, failed, Failure.toError_toFault]
  cases h : c.registry.emit c.machine (.onError ((x.error s.lastSpan).stamp s.lastIndex))
      s.host with
  | ok _ host =>
      have hemit : Exec.emit c (.onError ((x.error s.lastSpan).stamp s.lastIndex)) s =
          .ok () { s with host := host } := Exec.hooks_of_ok h
      simp only [hemit]
      exact .inl ⟨host, rfl, rfl⟩
  | error e host =>
      have hemit : Exec.emit c (.onError ((x.error s.lastSpan).stamp s.lastIndex)) s =
          .error ((Failure.handler (.event .onError) e).toFault s.lastSpan)
            { s with host := host } := Exec.hooks_of_error h
      simp only [hemit]
      refine .inr ⟨e, host, rfl, ?_⟩
      rw [← Failure.toError_toFault]
      rfl

end Outcome

namespace Program

theorem run_completes_or_reports (p : Program) (c : Setting σ) (world : σ) :
    (∃ s, p.Reaches c world [] s ∧ p.run c world = ⟨none, s⟩) ∨
      ∃ x s, p.Raises c world x s ∧ x.Origin c p.macros s ∧
        (∀ b e, x = .breakdown b → x.Becomes s.log e →
          e.message = "Internal VM error: " ++ b.text) ∧
        Outcome.Reports c s x (p.run c world) := by
  rcases completes_or_raises p c world with ⟨s, hreaches⟩ | ⟨x, s, hraises⟩
  · exact .inl ⟨s, hreaches, run_of_reaches hreaches⟩
  · refine .inr ⟨x, s, hraises, origin_of_raises hraises, ?_, ?_⟩
    · rintro b e rfl ⟨⟩
      rfl
    · rw [run_of_raises hraises]
      exact Outcome.reports_failed c s x

/-- A sink refuses a chunk: this is told at the second step, which wrote it. -/
theorem run_reports_refusal :
    let p : Program :=
      ⟨[.of (.comment "c") (some ⟨3, 6, 1, 4⟩), .of (.emitLiteral "x") (some ⟨7, 10, 2, 1⟩)],
        ⟨[]⟩⟩
    let c : Setting Unit :=
      ⟨"m", .empty, Registry.empty, Sink.failingAt 0 "no space left", false⟩
    (∃ x s, p.Raises c () x s ∧ Outcome.Reports c s x (p.run c ())) ∧
      (p.run c ()).error =
        some ⟨.internal (.breakdown "no space left"), some ⟨7, 10, 2, 1⟩, some 1⟩ := by
  intro p c
  have herror : (p.run c ()).error =
      some ⟨.internal (.breakdown "no space left"), some ⟨7, 10, 2, 1⟩, some 1⟩ := by
    decide +kernel
  refine ⟨?_, herror⟩
  rcases run_completes_or_reports p c () with ⟨s, _, hrun⟩ | ⟨x, s, hraises, _, _, hreports⟩
  · rw [hrun] at herror
    cases herror
  · exact ⟨x, s, hraises, hreports⟩

end Program

end Stencil
