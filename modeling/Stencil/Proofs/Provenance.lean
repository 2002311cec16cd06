import Stencil.Proofs.Growth
import Stencil.Proofs.Placement

/-!
# Where the steps of a run come from

A run executes and logs only instructions of its program and of the macros of it,
and what the machine itself raises is raised at one of them.  So a run of a
compiled program logs, and reports, only places in the source.
-/

namespace Stencil

/-! ## Unmatched iterations -/

namespace Code

variable {is : List Instruction}

theorem mem_of_suffix_unclosed {lastOpen : Option Span} {pending : List (Option Span)}
    (h : suffix is = .unclosed lastOpen pending) :
    ∀ span ∈ lastOpen :: pending, ∃ i ∈ is, i.span = span := by
  induction is generalizing lastOpen pending with
  | nil => cases h
  | cons i is ih =>
      have hlater : ∀ span, (∃ j ∈ is, j.span = span) → ∃ j ∈ i :: is, j.span = span := by
        rintro span ⟨j, hj, hspan⟩
        exact ⟨j, List.mem_cons_of_mem _ hj, hspan⟩
      rw [suffix, List.foldr_cons, ← suffix] at h
      rcases i with ⟨operation, here⟩
      cases hs : suffix is with
      | closed code waiting =>
          rw [hs] at h
          cases operation with
          | act action => cases h
          | endArrayIter => cases h
          | beginArrayIter array =>
              cases waiting with
              | cons p waiting => cases h
              | nil =>
                  cases h
                  intro span hspan
                  rw [List.mem_singleton.mp hspan]
                  exact ⟨_, List.mem_cons_self, rfl⟩
      | unclosed open' waiting =>
          rw [hs] at h
          have hknown := ih hs
          intro span hspan
          cases operation with
          | act action =>
              cases h
              exact hlater span (hknown span hspan)
          | beginArrayIter array =>
              cases h
              apply hlater span (hknown span _)
              rcases List.mem_cons.mp hspan with rfl | hspan
              · exact List.mem_cons_self
              · exact List.mem_cons_of_mem _ (List.mem_of_mem_tail hspan)
          | endArrayIter =>
              cases h
              rcases List.mem_cons.mp hspan with rfl | hspan
              · exact hlater span (hknown span List.mem_cons_self)
              · rcases List.mem_cons.mp hspan with rfl | hspan
                · exact ⟨_, List.mem_cons_self, rfl⟩
                · exact hlater span (hknown span (List.mem_cons_of_mem _ hspan))

/-- An unmatched end or beginning is reported where it stands. -/
theorem mem_of_ofInstructions_error {fault : IterationFault}
    (h : ofInstructions is = .error fault) : ∃ i ∈ is, i.span = fault.span := by
  cases hs : suffix is with
  | closed code pending =>
      rw [ofInstructions, hs] at h
      cases pending with
      | nil => cases h
      | cons p pending =>
          rcases p with ⟨span, rest⟩
          cases h
          have hall := instructions_of_suffix hs
          refine ⟨⟨.endArrayIter, span⟩, ?_, rfl⟩
          rw [← hall]
          simp [Suffix.instructions]
  | unclosed lastOpen pending =>
      rw [ofInstructions, hs] at h
      have hknown := mem_of_suffix_unclosed hs
      cases pending with
      | nil =>
          cases h
          exact hknown lastOpen List.mem_cons_self
      | cons span pending =>
          cases h
          exact hknown span (List.mem_cons_of_mem _ List.mem_cons_self)

end Code

/-! ## Tasks -/

variable {σ : Type} {c : Setting σ} {macros : MacroTable} {s s' : State σ} {x : Failure}

/-- Every step in the log is of an instruction with the property. -/
def State.LogsOnly (P : Instruction → Prop) (s : State σ) : Prop :=
  ∀ entry ∈ s.log, P entry.instruction

/-- Every instruction of every macro has the property. -/
def MacroTable.HoldsOnly (P : Instruction → Prop) (macros : MacroTable) : Prop :=
  ∀ m ∈ macros.entries, ∀ i ∈ m.pattern ++ m.body, P i

variable {P : Instruction → Prop}

namespace Task

/-- The instructions that the task executes have the property, those of the macros
it calls apart. -/
def Only (P : Instruction → Prop) : Task → Prop
  | log i => P i
  | perform _ span action => P (.of action span)
  | loop _ opening array body =>
      P ⟨.beginArrayIter array, opening⟩ ∧ ∀ i ∈ body.toInstructions, P i
  | items _ _ _ body _ _ => ∀ i ∈ body.toInstructions, P i
  | code _ matched => ∀ i ∈ matched.toInstructions, P i
  | fragment _ is => ∀ i ∈ is, P i
  | enter _ _ m => ∀ i ∈ m.body, P i
  | invoke _ _ m _ => ∀ i ∈ m.body, P i
  | _ => True

variable {task : Task}

theorem only_of_steps (hmacros : macros.HoldsOnly P) (honly : task.Only P)
    {new : List Task} (h : Steps c macros task s new s') : ∀ next ∈ new, next.Only P := by
  cases h with
  -- only here do instructions come in from the table
  | @call depth span name block m s hfound =>
      have hm : m ∈ macros.entries := MacroTable.mem_entries_of_get? hfound
      rcases List.forall_mem_append.mp (hmacros m hm) with ⟨hpattern, hbody⟩
      simp only [List.forall_mem_cons, Only]
      exact ⟨hpattern, hbody, List.forall_mem_nil _⟩
  | step depth action span rest s =>
      rcases List.forall_mem_cons.mp honly with ⟨haction, hrest⟩
      simp only [List.forall_mem_cons, Only]
      exact ⟨haction, haction, hrest, List.forall_mem_nil _⟩
  | iteration depth opening closing array body rest s =>
      rcases List.forall_mem_cons.mp honly with ⟨hopening, hinner⟩
      rcases List.forall_mem_append.mp hinner with ⟨hbody, hafter⟩
      rcases List.forall_mem_cons.mp hafter with ⟨hclosing, hrest⟩
      simp only [List.forall_mem_cons, Only]
      exact ⟨hopening, ⟨hopening, hbody⟩, hclosing, hrest, List.forall_mem_nil _⟩
  | fragment depth s hmatched =>
      have hcode := Code.toInstructions_of_ofInstructions hmatched
      simp only [List.mem_singleton, forall_eq, Only, hcode]
      exact honly
  | loop depth opening body s hfound =>
      simp only [List.forall_mem_cons, Only]
      exact ⟨trivial, honly.2, List.forall_mem_nil _⟩
  | item depth array span body index item rest s =>
      simp only [List.forall_mem_cons, Only]
      exact ⟨honly, trivial, honly, List.forall_mem_nil _⟩
  | enter depth span m hcaptures =>
      simp only [List.forall_mem_cons, Only]
      exact ⟨trivial, honly, List.forall_mem_nil _⟩
  | invoke depth span m text s =>
      simp only [List.forall_mem_cons, Only]
      exact ⟨honly, List.forall_mem_nil _⟩
  | _ => simp [Only]

theorem logsOnly_of_steps (honly : task.Only P) (hlog : s.LogsOnly P) {new : List Task}
    (h : Steps c macros task s new s') : s'.LogsOnly P := by
  cases h with
  | log i s =>
      intro entry hentry
      rcases Array.mem_push.mp hentry with hentry | rfl
      · exact hlog entry hentry
      · exact honly
  | _ => exact hlog

theorem log_of_fails (h : Fails c macros task s x s') : s'.log = s.log := by
  cases h <;> rfl

/-- What the machine raises has no place, or that of an instruction. -/
theorem span_of_fails (honly : task.Only P) {e : RuntimeError}
    (h : Fails c macros task s (.machine e) s') :
    e.span = none ∨ ∃ i, P i ∧ i.span = e.span := by
  cases h with
  | emitVar depth span hmissing => exact .inr ⟨_, honly, rfl⟩
  | nop depth span s => exact .inr ⟨_, honly, rfl⟩
  | bind name text hframes => exact .inl rfl
  | leave hframes => exact .inl rfl
  | loop depth opening body s hmissing => exact .inr ⟨_, honly.1, rfl⟩
  | fragment depth s hunmatched =>
      rcases Code.mem_of_ofInstructions_error hunmatched with ⟨i, hi, hspan⟩
      exact .inr ⟨i, honly i hi, hspan⟩

end Task

namespace Agenda

theorem only_of_leads (hmacros : macros.HoldsOnly P) {tasks tasks' : List Task}
    (h : Leads c macros tasks s tasks' s') (honly : ∀ task ∈ tasks, task.Only P)
    (hlog : s.LogsOnly P) : (∀ task ∈ tasks', task.Only P) ∧ s'.LogsOnly P := by
  induction h with
  | refl tasks s => exact ⟨honly, hlog⟩
  | step hstep _ ih =>
      rcases List.forall_mem_cons.mp honly with ⟨htask, hrest⟩
      apply ih
      · exact List.forall_mem_append.mpr ⟨Task.only_of_steps hmacros htask hstep, hrest⟩
      · exact Task.logsOnly_of_steps htask hlog hstep

end Agenda

/-! ## Runs -/

theorem State.lastSpan_of_logsOnly (h : s.LogsOnly P) :
    s.lastSpan = none ∨ ∃ i, P i ∧ i.span = s.lastSpan := by
  rw [State.lastSpan]
  cases hlast : s.log.back? with
  | none => exact .inl rfl
  | some entry => exact .inr ⟨entry.instruction, h entry (Array.mem_of_back? hlast), rfl⟩

namespace Program

/-- The instruction stands in the program or in a macro of its table. -/
def Contains (p : Program) (i : Instruction) : Prop :=
  i ∈ p.instructions ∨ ∃ m ∈ p.macros.entries, i ∈ m.pattern ++ m.body

variable {p : Program} {world : σ}

theorem contains_of_reaches {tasks : List Task} (h : p.Reaches c world tasks s) :
    (∀ task ∈ tasks, task.Only p.Contains) ∧ s.LogsOnly p.Contains := by
  apply Agenda.only_of_leads _ h
  · simp only [agenda, List.forall_mem_cons, Task.Only]
    exact ⟨trivial, fun i hi => .inl hi, trivial, List.forall_mem_nil _⟩
  · intro entry hentry
    exact absurd hentry (Array.not_mem_empty entry)
  · intro m hm i hi
    exact .inr ⟨m, hm, hi⟩

theorem contains_of_raises (h : p.Raises c world x s) :
    s.LogsOnly p.Contains ∧
      ∀ e, x = .machine e → e.span = none ∨ ∃ i, p.Contains i ∧ i.span = e.span := by
  rcases h with ⟨task, rest, before, hleads, hfails⟩
  rcases contains_of_reaches hleads with ⟨honly, hlog⟩
  constructor
  · rw [State.LogsOnly, Task.log_of_fails hfails]
    exact hlog
  · rintro e rfl
    exact Task.span_of_fails (honly task List.mem_cons_self) hfails

/-- A run logs instructions of its program only. -/
theorem logsOnly_of_visits (h : p.Visits c world s) : s.LogsOnly p.Contains := by
  cases h with
  | reached hreaches => exact (contains_of_reaches hreaches).2
  | raised hraises => exact (contains_of_raises hraises).1
  | ended =>
      rcases completes_or_raises p c world with ⟨s, hreaches⟩ | ⟨x, s, hraises⟩
      · rw [run_of_reaches hreaches]
        exact (contains_of_reaches hreaches).2
      · rcases (reports_of_raises hraises).state with ⟨host, hstate, _⟩
        rw [hstate]
        exact (contains_of_raises hraises).1

/-- Unless a hook fails with a runtime error of its own, a run fails at no place, or
at that of an instruction of its program. -/
theorem span_of_run_error (hhooks : ∀ point e, ¬c.registry.Throws c.machine point (.runtime e))
    {e : RuntimeError} (h : (p.run c world).error = some e) :
    e.span = none ∨ ∃ i, p.Contains i ∧ i.span = e.span := by
  rcases completes_or_raises p c world with ⟨s, hreaches⟩ | ⟨x, s, hraises⟩
  · rw [run_of_reaches hreaches] at h
    cases h
  · rcases contains_of_raises hraises with ⟨hlog, hmachine⟩
    have hlast := State.lastSpan_of_logsOnly hlog
    have horigin := origin_of_raises hraises
    rcases Outcome.reports_iff.mp (reports_of_raises hraises) with
      ⟨host, _, hrun⟩ | ⟨failure, host, hemit, hrun⟩
    · rw [hrun] at h
      cases h
      cases x with
      | machine e => exact hmachine e rfl
      | breakdown b => exact hlast
      | handler point e =>
          cases horigin with
          | thrown hthrows =>
              cases e with
              | runtime e => exact absurd hthrows (hhooks point e)
              | _ => exact hlast
    · rw [hrun] at h
      cases h
      have hthrows := Registry.throws_of_emit hemit
      cases failure with
      | runtime e => exact absurd hthrows (hhooks _ e)
      | _ => exact hlast

theorem Located.contains {P : Span → Prop} (h : p.Located P) {i : Instruction}
    (hi : p.Contains i) : i.Located P := by
  rcases hi with hi | ⟨m, hm, hi⟩
  · exact h.instructions i hi
  · exact (h.macros m hm).2 i hi

theorem Placed.contains {source : List Char} (h : p.Placed source) {i : Instruction}
    (hi : p.Contains i) : i.Placed source :=
  Located.contains ⟨h.instructions, h.macros⟩ hi

/-! ## Sources -/

/-- Every span that comes of a source lies in it, with the line and the column of
its first character: those of tokens, of the parts of a document, of instructions
and macros, of logged steps and of errors, unless a hook makes up an error of its
own.  A name that is interpolated has the place where it is. -/
theorem spans_within (source : String) :
    (∀ t ∈ tokenize source, t.span.Within source.toList) ∧
    (∀ document, Document.ofTokens (tokenize source) = .ok document →
      (∀ s ∈ document.spans, s.Within source.toList) ∧
      ∀ span raw, .string span raw ∈ document.operands →
        ∀ is, (Operand.string span raw).lower = .ok is →
          ∀ name s, .of (.emitVar name) (some s) ∈ is →
            s.text source.toList = '$' :: '(' :: (name.toList ++ [')'])) ∧
    (∀ e, compile source = .error e → ∀ s ∈ e.spans, s.Within source.toList) ∧
    ∀ p, compile source = .ok p →
      p.Placed source.toList ∧
      ∀ (σ : Type) (c : Setting σ) (world : σ),
        (∀ s, p.Visits c world s →
          ∀ entry ∈ s.log, entry.instruction.Placed source.toList) ∧
        ((∀ point e, ¬c.registry.Throws c.machine point (.runtime e)) →
          ∀ e, (p.run c world).error = some e →
            ∀ s, e.span = some s → s.Within source.toList) := by
  refine ⟨tokenize_within source, ?_, fun e => placed_of_compile_error, ?_⟩
  · intro document hdocument
    have hwritten := Document.written_of_ofTokens hdocument
    constructor
    · exact hwritten.spans
    · intro span raw ho is his name s hs
      exact Operand.text_of_interpolation (hwritten.operands _ ho) his hs
  · intro p hp
    have hplaced := placed_of_compile hp
    refine ⟨hplaced, fun σ c world => ⟨?_, ?_⟩⟩
    · intro s hs entry hentry
      exact hplaced.contains (logsOnly_of_visits hs entry hentry)
    · intro hhooks e he s hs
      rcases span_of_run_error hhooks he with hnone | ⟨i, hi, hspan⟩
      · rw [hs] at hnone
        cases hnone
      · rcases hplaced.contains hi with ⟨s', hs', hwithin⟩
        rw [hs', hs] at hspan
        cases hspan
        exact hwithin

/-- A name that is undefined where a macro interpolates it, and a macro that is
defined twice. -/
theorem spans_of_failures :
    let c : Setting Unit :=
      ⟨"m", ⟨[], [("a", ["1"])]⟩, Registry.empty, Sink.accepting, false⟩
    let source := "x\n\x7b\x7b @m \"<$(u)>\" | \"$(_)\"; a[:] | ?m \x7d\x7d"
    let twice := "\x7b\x7b @m x | y\n@m x | y \x7d\x7d"
    (∃ p e s, compile source = .ok p ∧ (p.run c ()).error = some e ∧ e.span = some s ∧
      s.Within source.toList) ∧
    ∃ e, compile twice = .error e ∧ e.spans.length = 2 ∧ ∀ s ∈ e.spans, s.Within twice.toList := by
  intro c source twice
  constructor
  · have hfails : (compile source).map (fun p => (p.run c ()).error.bind RuntimeError.span) =
        .ok (some ⟨10, 14, 2, 9⟩) := by
      decide +kernel
    have hhooks : ∀ point e, ¬c.registry.Throws c.machine point (.runtime e) := by
      intro point e
      cases point <;> simp [Registry.Throws, c, Registry.empty]
    cases hcompile : compile source with
    | error e =>
        rw [hcompile] at hfails
        cases hfails
    | ok p =>
        rw [hcompile] at hfails
        rcases Option.bind_eq_some_iff.mp (Except.ok.inj hfails) with ⟨e, he, hspan⟩
        rcases spans_within source with ⟨_, _, _, hcompiled⟩
        rcases hcompiled p hcompile with ⟨_, hruns⟩
        exact ⟨p, e, _, rfl, he, hspan, (hruns Unit c ()).2 hhooks e he _ hspan⟩
  · have hrejects : (match compile twice with
        | .ok _ => 0
        | .error e => e.spans.length) = 2 := by
      decide +kernel
    rcases spans_within twice with ⟨_, _, hrejected, _⟩
    cases hcompile : compile twice with
    | ok p =>
        rw [hcompile] at hrejects
        cases hrejects
    | error e =>
        rw [hcompile] at hrejects
        exact ⟨e, rfl, hrejects, hrejected e hcompile⟩

end Program

end Stencil
