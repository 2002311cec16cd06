import Stencil.Machine.Traceback
import Stencil.Proofs.Provenance

/-!
# The spans that a source yields

A frame is opened at an instruction, and a traceback shows where frames were opened or what
was logged in them.  So whatever comes of a source, from its tokens to a traceback, has its
place in the source.
-/

namespace Stencil

variable {σ : Type} {c : Setting σ} {macros : MacroTable} {s s' : State σ} {x : Failure}
  {P : Instruction → Prop}

/-! ## Frames -/

/-- Every open frame was opened at an instruction with the property. -/
def State.OpenedOnly (P : Instruction → Prop) (s : State σ) : Prop :=
  ∀ frame ∈ s.frames, ∃ i, P i ∧ i.span = frame.span

theorem State.OpenedOnly.opened (hs : s.OpenedOnly P) {span : Option Span}
    (h : ∃ i, P i ∧ i.span = span) (name : String) (kind : FrameKind) (values : Bindings) :
    (s.opened name kind span values).OpenedOnly P := by
  intro frame hframe
  rcases List.mem_cons.mp hframe with rfl | hframe
  · exact h
  · exact hs frame hframe

namespace Task

/-- The frames that the task goes on to open are opened at such instructions. -/
def Opens (P : Instruction → Prop) : Task → Prop
  | items _ _ span _ _ _ => ∃ i, P i ∧ i.span = span
  | enter _ span _ => ∃ i, P i ∧ i.span = span
  | invoke _ span _ _ => ∃ i, P i ∧ i.span = span
  | _ => True

variable {task : Task}

theorem opens_of_steps (honly : task.Only P) (hopens : task.Opens P) {new : List Task}
    (h : Steps c macros task s new s') : ∀ next ∈ new, next.Opens P := by
  cases h with
  | call depth span s hfound =>
      simp only [List.forall_mem_cons, Opens]
      exact ⟨trivial, ⟨_, honly, rfl⟩, List.forall_mem_nil _⟩
  | loop depth opening body s hfound =>
      simp only [List.forall_mem_cons, Opens]
      exact ⟨trivial, ⟨_, honly.1, rfl⟩, List.forall_mem_nil _⟩
  | item depth array span body index item rest s =>
      simp only [List.forall_mem_cons, Opens]
      exact ⟨trivial, trivial, hopens, List.forall_mem_nil _⟩
  | enter depth span m hcaptures =>
      simp only [List.forall_mem_cons, Opens]
      exact ⟨trivial, hopens, List.forall_mem_nil _⟩
  | _ => simp [Opens]

theorem openedOnly_of_steps (honly : task.Only P) (hopens : task.Opens P)
    (hs : s.OpenedOnly P) {new : List Task} (h : Steps c macros task s new s') :
    s'.OpenedOnly P := by
  cases h with
  | pushScope depth span s => exact hs.opened ⟨_, honly, rfl⟩ _ _ _
  | item depth array span body index item rest s => exact hs.opened hopens _ _ _
  | invoke depth span m text s => exact hs.opened hopens _ _ _
  | bind name text hframes =>
      rw [State.OpenedOnly, hframes] at hs
      rcases List.forall_mem_cons.mp hs with ⟨hframe, houter⟩
      exact List.forall_mem_cons.mpr ⟨hframe, houter⟩
  | leave hframes =>
      rw [State.OpenedOnly, hframes] at hs
      exact (List.forall_mem_cons.mp hs).2
  | _ => exact hs

theorem frames_of_fails (h : Fails c macros task s x s') : s'.frames = s.frames := by
  cases h <;> rfl

end Task

theorem Agenda.openedOnly_of_leads (hmacros : macros.HoldsOnly P) {tasks tasks' : List Task}
    (h : Leads c macros tasks s tasks' s') (honly : ∀ task ∈ tasks, task.Only P)
    (hopens : ∀ task ∈ tasks, task.Opens P) (hs : s.OpenedOnly P) : s'.OpenedOnly P := by
  induction h with
  | refl tasks s => exact hs
  | step hstep _ ih =>
      rcases List.forall_mem_cons.mp honly with ⟨htask, hrest⟩
      rcases List.forall_mem_cons.mp hopens with ⟨htaskOpens, hrestOpens⟩
      apply ih
      · exact List.forall_mem_append.mpr ⟨Task.only_of_steps hmacros htask hstep, hrest⟩
      · exact List.forall_mem_append.mpr
          ⟨Task.opens_of_steps htask htaskOpens hstep, hrestOpens⟩
      · exact Task.openedOnly_of_steps htask htaskOpens hs hstep

/-! ## Runs -/

namespace Program

variable {p : Program} {world : σ}

theorem openedOnly_of_reaches {tasks : List Task} (h : p.Reaches c world tasks s) :
    s.OpenedOnly p.Contains := by
  refine Agenda.openedOnly_of_leads (fun m hm i hi => .inr ⟨m, hm, hi⟩) h ?_ ?_ ?_
  · simp only [agenda, List.forall_mem_cons, Task.Only]
    exact ⟨trivial, fun i hi => .inl hi, trivial, List.forall_mem_nil _⟩
  · simp [agenda, Task.Opens]
  · exact List.forall_mem_nil _

theorem openedOnly_of_raises (h : p.Raises c world x s) : s.OpenedOnly p.Contains := by
  rcases h with ⟨task, rest, before, hleads, hfails⟩
  rw [State.OpenedOnly, Task.frames_of_fails hfails]
  exact openedOnly_of_reaches hleads

/-- The frames that a run opens are opened at instructions of its program. -/
theorem openedOnly_of_visits (h : p.Visits c world s) : s.OpenedOnly p.Contains := by
  cases h with
  | reached hreaches => exact openedOnly_of_reaches hreaches
  | raised hraises => exact openedOnly_of_raises hraises
  | ended =>
      rcases completes_or_raises p c world with ⟨s, hreaches⟩ | ⟨x, s, hraises⟩
      · rw [run_of_reaches hreaches]
        exact openedOnly_of_reaches hreaches
      · rcases (reports_of_raises hraises).state with ⟨host, hstate, _⟩
        have hopened := openedOnly_of_raises hraises
        rw [hstate]
        exact hopened

end Program

namespace State

theorem span_of_tracebackFrame (hlog : s.LogsOnly P) {name : String} {id : FrameId}
    {opened : Option Span} {span : Span} (hopened : opened = none ∨ ∃ i, P i ∧ i.span = opened)
    (h : (s.tracebackFrame name id opened).span = some span) : ∃ i, P i ∧ i.span = some span := by
  rw [tracebackFrame] at h
  cases hentry : s.lastEntry? id with
  | none =>
      rw [hentry] at h
      change opened = some span at h
      rcases hopened with hnone | hopened
      · rw [hnone] at h
        cases h
      · rwa [h] at hopened
  | some entry =>
      rw [hentry] at h
      have hmem := List.mem_of_find?_eq_some hentry
      rw [List.mem_reverse, Array.mem_toList_iff] at hmem
      exact ⟨entry.instruction, hlog entry hmem, h⟩

/-- A traceback shows places of instructions. -/
theorem span_of_mem_tracebackFrames (hlog : s.LogsOnly P) (hopened : s.OpenedOnly P)
    {f : TracebackFrame} (hf : f ∈ s.tracebackFrames) {span : Span} (h : f.span = some span) :
    ∃ i, P i ∧ i.span = some span := by
  rcases List.mem_cons.mp hf with rfl | hf
  · exact span_of_tracebackFrame hlog (.inl rfl) h
  · rcases List.mem_map.mp hf with ⟨frame, hframe, rfl⟩
    exact span_of_tracebackFrame hlog (.inr (hopened frame (List.mem_reverse.mp hframe))) h

end State

/-! ## Sources -/

namespace Span

open Program (compile placed_of_compile placed_of_compile_error)

/-- The spans that come of a source: those of tokens, of the parts of a document, of a rejection
and its notes, of instructions and macros, and those that a run logs, opens frames at, fails
with, unless a hook makes up an error of its own, and shows in a traceback. -/
inductive Yielded (source : String) : Span → Prop where
  | token {t : Token} (ht : t ∈ tokenize source) : Yielded source t.span
  | part {document : Document} {s : Span}
      (hdocument : Document.ofTokens (tokenize source) = .ok document)
      (hs : s ∈ document.spans) : Yielded source s
  | rejection {e : CompileError} {s : Span} (he : compile source = .error e)
      (hs : s ∈ e.spans) : Yielded source s
  | instruction {p : Program} {i : Instruction} {s : Span} (hp : compile source = .ok p)
      (hi : p.Contains i) (hs : i.span = some s) : Yielded source s
  | definition {p : Program} {m : Macro} {s : Span} (hp : compile source = .ok p)
      (hm : m ∈ p.macros.entries) (hs : m.span = some s) : Yielded source s
  | logged {σ : Type} {p : Program} {c : Setting σ} {world : σ} {state : State σ}
      {entry : LogEntry} {s : Span} (hp : compile source = .ok p)
      (hstate : p.Visits c world state) (hentry : entry ∈ state.log)
      (hs : entry.span = some s) : Yielded source s
  | frame {σ : Type} {p : Program} {c : Setting σ} {world : σ} {state : State σ}
      {frame : Frame} {s : Span} (hp : compile source = .ok p)
      (hstate : p.Visits c world state) (hframe : frame ∈ state.frames)
      (hs : frame.span = some s) : Yielded source s
  | failure {σ : Type} {p : Program} {c : Setting σ} {world : σ} {e : RuntimeError} {s : Span}
      (hp : compile source = .ok p)
      (hhooks : ∀ point e, ¬c.registry.Throws c.machine point (.runtime e))
      (he : (p.run c world).error = some e) (hs : e.span = some s) : Yielded source s
  | traceback {σ : Type} {p : Program} {c : Setting σ} {world : σ} {state : State σ}
      {f : TracebackFrame} {s : Span} (hp : compile source = .ok p)
      (hstate : p.Visits c world state) (hf : f ∈ state.tracebackFrames)
      (hs : f.span = some s) : Yielded source s

variable {source : String} {span : Span}

theorem within_of_contains {p : Program} (hp : compile source = .ok p)
    (h : ∃ i, p.Contains i ∧ i.span = some span) : span.Within source.toList := by
  rcases h with ⟨i, hi, hspan⟩
  rcases (placed_of_compile hp).contains hi with ⟨s, hs, hwithin⟩
  cases hs.symm.trans hspan
  exact hwithin

theorem Yielded.within (h : span.Yielded source) : span.Within source.toList := by
  cases h with
  | token ht => exact tokenize_within source _ ht
  | part hdocument hs => exact (Document.written_of_ofTokens hdocument).spans _ hs
  | rejection he hs => exact placed_of_compile_error he _ hs
  | instruction hp hi hs => exact within_of_contains hp ⟨_, hi, hs⟩
  | definition hp hm hs =>
      rcases ((placed_of_compile hp).macros _ hm).1 with ⟨s, hs', hwithin⟩
      cases hs'.symm.trans hs
      exact hwithin
  | logged hp hstate hentry hs =>
      exact within_of_contains hp ⟨_, Program.logsOnly_of_visits hstate _ hentry, hs⟩
  | frame hp hstate hframe hs =>
      have hopened := Program.openedOnly_of_visits hstate _ hframe
      rw [hs] at hopened
      exact within_of_contains hp hopened
  | failure hp hhooks he hs =>
      rcases Program.span_of_run_error hhooks he with hnone | hcontains
      · cases hs.symm.trans hnone
      · rw [hs] at hcontains
        exact within_of_contains hp hcontains
  | traceback hp hstate hf hs =>
      exact within_of_contains hp (State.span_of_mem_tracebackFrames
        (Program.logsOnly_of_visits hstate) (Program.openedOnly_of_visits hstate) hf hs)

end Span

end Stencil
