import Stencil.Compile
import Stencil.Machine.Traceback
import Stencil.Proofs.Episodes
import Stencil.Proofs.Numbering
import Stencil.Proofs.Soundness

/-!
# Tracebacks are true

A traceback goes from the document to the innermost frame, and shows for each what was
logged last while it was the innermost one.  It is read off the log after the run; that it
tells what went on in the run comes of the numbering of frames and steps.  Where the machine
misses a name, the last line of the traceback is about the instruction that misses it, as
nothing was logged since.
-/

namespace Stencil

variable {σ : Type}

/-! ## The last entry -/

/-- Of entries in descending order, the first to be found is the one with the greatest
index. -/
theorem LogEntry.find?_eq_some_iff {keep : LogEntry → Bool} {entry : LogEntry}
    {entries : List LogEntry}
    (h : entries.Pairwise fun later earlier => earlier.index < later.index) :
    entries.find? keep = some entry ↔
      entry ∈ entries ∧ keep entry = true ∧
        ∀ other ∈ entries, keep other = true → other.index ≤ entry.index := by
  induction entries with
  | nil => simp
  | cons head entries ih =>
      rcases List.pairwise_cons.mp h with ⟨hhead, hentries⟩
      by_cases hkeep : keep head = true
      · rw [List.find?_cons_of_pos hkeep, Option.some_inj]
        constructor
        · rintro rfl
          refine ⟨List.mem_cons_self, hkeep, List.forall_mem_cons.mpr ⟨fun _ => le_rfl, ?_⟩⟩
          exact fun other hother _ => Nat.le_of_lt (hhead other hother)
        · rintro ⟨hmem, _, hgreatest⟩
          rcases List.mem_cons.mp hmem with rfl | hmem
          · rfl
          · have hle := hgreatest head List.mem_cons_self hkeep
            exact absurd (hhead entry hmem) (Nat.not_lt.mpr hle)
      · rw [List.find?_cons_of_neg hkeep, ih hentries]
        constructor
        · rintro ⟨hmem, hentry, hgreatest⟩
          refine ⟨List.mem_cons_of_mem _ hmem, hentry, List.forall_mem_cons.mpr ⟨?_, hgreatest⟩⟩
          exact fun hpos => absurd hpos hkeep
        · rintro ⟨hmem, hentry, hgreatest⟩
          rcases List.mem_cons.mp hmem with rfl | hmem
          · exact absurd hentry hkeep
          · refine ⟨hmem, hentry, fun other hother => ?_⟩
            exact hgreatest other (List.mem_cons_of_mem _ hother)

namespace State

variable {s : State σ} {id : FrameId} {entry : LogEntry}

theorem lastEntry?_eq_some_iff (h : s.Orderly) :
    s.lastEntry? id = some entry ↔
      entry ∈ s.log.toList ∧ entry.frame = id ∧
        ∀ other ∈ s.log.toList, other.frame = id → other.index ≤ entry.index := by
  unfold lastEntry?
  rw [LogEntry.find?_eq_some_iff (List.pairwise_reverse.mpr h.sorted)]
  simp only [List.mem_reverse, beq_iff_eq]

theorem lastEntry?_eq_none_iff :
    s.lastEntry? id = none ↔ ∀ entry ∈ s.log.toList, entry.frame ≠ id := by
  unfold lastEntry?
  rw [List.find?_eq_none]
  simp only [List.mem_reverse, beq_iff_eq, ne_eq]

/-- What was logged last is what is shown for its frame. -/
theorem lastEntry?_of_back (h : s.log.back? = some entry) :
    s.lastEntry? entry.frame = some entry := by
  have hlast : s.log.toList.getLast? = some entry := by
    rw [Array.getLast?_toList]
    exact h
  rcases List.getLast?_eq_some_iff.mp hlast with ⟨before, hlog⟩
  unfold lastEntry?
  rw [hlog, List.reverse_append]
  exact List.find?_cons_of_pos (beq_self_eq_true _)

end State

namespace Program

/-! ## What was logged where -/

section History

variable (p : Program) (c : Setting σ) (world : σ)

/-- The run logs this step while this frame is the innermost one, or while no frame is
open. -/
inductive LogsIn : Option FrameId → LogEntry → Prop where
  | step {i : Instruction} {rest : List Task} {s : State σ}
      (h : p.Reaches c world (.log i :: rest) s) :
      LogsIn (s.frames.head?.map Frame.id) (s.entry c.verbose i)

/-- It is the last step that the run logs there. -/
structure LogsLast (place : Option FrameId) (entry : LogEntry) : Prop where
  logs : p.LogsIn c world place entry
  last : ∀ other, p.LogsIn c world place other → other.index ≤ entry.index

end History

variable {p : Program} {c : Setting σ} {world : σ} {tasks : List Task} {s s' : State σ}
  {place : Option FrameId} {entry : LogEntry}

/-- By induction on the steps: what is in the log was there, or one of the steps logs it. -/
theorem logsIn_of_leads {tasks' : List Task} (h : Agenda.Leads c p.macros tasks s tasks' s')
    (hreaches : p.Reaches c world tasks s)
    (hlog : ∀ entry ∈ s.log.toList, ∃ place, p.LogsIn c world place entry) :
    ∀ entry ∈ s'.log.toList, ∃ place, p.LogsIn c world place entry := by
  induction h with
  | refl => exact hlog
  | step hstep _ ih =>
      refine ih (hreaches.trans (.step hstep (.refl _ _))) ?_
      cases hstep with
      | log i s =>
          rw [State.log_logged]
          exact List.forall_mem_append.mpr
            ⟨hlog, List.forall_mem_singleton.mpr ⟨_, .step hreaches⟩⟩
      | _ => exact hlog

theorem logsIn_of_mem (h : entry ∈ (p.run c world).state.log.toList) :
    ∃ place, p.LogsIn c world place entry := by
  rcases ends_as_reached p c world with ⟨tasks, s, hreaches, hkeeps⟩
  rw [hkeeps.log] at h
  exact logsIn_of_leads hreaches (.refl _ _) (List.forall_mem_nil _) entry h

theorem LogsIn.mem (h : p.LogsIn c world place entry) :
    entry ∈ (p.run c world).state.log.toList := by
  cases h with
  | @step i rest s h =>
      have hlogged : p.Reaches c world (.rules (s.context i) :: rest) (s.logged c.verbose i) :=
        h.trans (.step (.log i s) (.refl _ _))
      apply (grows_of_reaches hlogged).log.subset
      rw [State.log_logged]
      exact List.mem_append_right _ List.mem_cons_self

theorem LogsIn.frame_eq (h : p.LogsIn c world place entry) : entry.frame = place.getD .root := by
  cases h with
  | step h => rfl

theorem LogsIn.place_ne (h : p.LogsIn c world place entry) : place ≠ some .root := by
  cases h with
  | @step i rest s h =>
      cases hframes : s.frames with
      | nil => simp
      | cons frame outer =>
          intro hroot
          have hbefore : FrameId.root.Before frame.id :=
            (orderly_of_reaches h).root_before (by rw [hframes]; exact List.mem_cons_self)
          exact hbefore.ne (Option.some.inj hroot).symm

/-- The log tells where a step was logged. -/
theorem logsIn_iff (hplace : place ≠ some .root) :
    p.LogsIn c world place entry ↔
      entry ∈ (p.run c world).state.log.toList ∧ entry.frame = place.getD .root := by
  constructor
  · exact fun h => ⟨h.mem, h.frame_eq⟩
  · rintro ⟨hmem, hframe⟩
    rcases logsIn_of_mem hmem with ⟨other, hlogs⟩
    have hsame : other.getD .root = place.getD .root := hlogs.frame_eq.symm.trans hframe
    have hother := hlogs.place_ne
    have heq : other = place := by
      cases other <;> cases place <;> simp_all
    rw [← heq]
    exact hlogs

theorem logsLast_iff (hplace : place ≠ some .root) :
    p.LogsLast c world place entry ↔
      State.lastEntry? (p.run c world).state (place.getD .root) = some entry := by
  rw [State.lastEntry?_eq_some_iff (orderly_run p c world)]
  constructor
  · rintro ⟨hlogs, hlast⟩
    refine ⟨hlogs.mem, hlogs.frame_eq, fun other hmem hframe => ?_⟩
    exact hlast other ((logsIn_iff hplace).mpr ⟨hmem, hframe⟩)
  · rintro ⟨hmem, hframe, hlast⟩
    refine ⟨(logsIn_iff hplace).mpr ⟨hmem, hframe⟩, fun other hlogs => ?_⟩
    exact hlast other hlogs.mem hlogs.frame_eq

/-! ## What is shown -/

/-- A line of the traceback is about the document or about a frame.  It shows the last step
that was logged there, and if there is none, the place where the frame was opened. -/
structure Depicts (p : Program) (c : Setting σ) (world : σ) (frame : Option Frame)
    (shown : TracebackFrame) : Prop where
  name : shown.name = (frame.map Frame.name).getD "<document>"
  entry : ∀ entry, shown.entry = some entry ↔ p.LogsLast c world (frame.map Frame.id) entry
  unlogged : shown.entry = none ↔ ∀ entry, ¬p.LogsIn c world (frame.map Frame.id) entry
  span : shown.span = (shown.entry.map LogEntry.span).getD (frame.bind Frame.span)

theorem depicts_tracebackFrame (frame : Option Frame) (h : frame.map Frame.id ≠ some .root) :
    p.Depicts c world frame
      ((p.run c world).state.tracebackFrame ((frame.map Frame.name).getD "<document>")
        ((frame.map Frame.id).getD .root) (frame.bind Frame.span)) where
  name := rfl
  entry := fun _ => (logsLast_iff h).symm
  unlogged := by
    rw [State.tracebackFrame, State.lastEntry?_eq_none_iff]
    constructor
    · exact fun hnone entry hlogs => hnone entry hlogs.mem hlogs.frame_eq
    · exact fun hnone entry hmem hframe => hnone entry ((logsIn_iff h).mpr ⟨hmem, hframe⟩)
  span := rfl

theorem depicts_tracebackFrames (p : Program) (c : Setting σ) (world : σ) :
    List.Forall₂ (p.Depicts c world)
      (none :: (p.run c world).state.frames.reverse.map some)
      (p.run c world).state.tracebackFrames := by
  refine .cons (depicts_tracebackFrame none (Option.some_ne_none _).symm) ?_
  rw [List.forall₂_map_left_iff, List.forall₂_map_right_iff, List.forall₂_same]
  intro frame hframe
  have hroot := (orderly_run p c world).root_before (List.mem_reverse.mp hframe)
  exact depicts_tracebackFrame (some frame) fun h => hroot.ne (Option.some.inj h).symm

end Program

namespace State

variable {s : State σ} {entry : LogEntry}

theorem entries_tracebackFrames (s : State σ) :
    s.tracebackFrames.filterMap TracebackFrame.entry =
      s.places.reverse.filterMap s.lastEntry? := by
  have hplaces : s.places.reverse = .root :: s.frames.reverse.map Frame.id := by
    rw [places, List.reverse_append, List.map_reverse]
    rfl
  rw [hplaces, tracebackFrames, List.filterMap_cons, List.filterMap_cons, List.filterMap_map,
    List.filterMap_map]
  rfl

theorem Orderly.entries_increasing (h : s.Orderly) :
    (s.tracebackFrames.filterMap TracebackFrame.entry).Pairwise fun outer inner =>
      outer.index < inner.index := by
  rw [entries_tracebackFrames, List.pairwise_filterMap, List.pairwise_reverse]
  refine h.ordered.imp fun hprecedes earlier hearlier later hlater => ?_
  rcases (lastEntry?_eq_some_iff h).mp hearlier with ⟨hmem, hframe, _⟩
  rcases (lastEntry?_eq_some_iff h).mp hlater with ⟨hmem', hframe', _⟩
  exact hprecedes earlier hmem later hmem' hframe hframe'

theorem Orderly.texts_nodup (h : s.Orderly) :
    (FrameId.root.text :: s.host.openings.map fun frame => frame.id.text).Nodup := by
  have htexts : (s.host.openings.map fun frame => frame.id.text) =
      (List.range s.frameCount).map fun n => (FrameId.numbered (n + 1)).text := by
    have hids := congrArg (List.map FrameId.text) h.openings
    rw [List.map_map, List.map_map] at hids
    exact hids
  rw [htexts, List.nodup_cons]
  constructor
  · intro hroot
    rcases List.mem_map.mp hroot with ⟨n, _, htext⟩
    exact FrameId.text_root_ne (n + 1) htext.symm
  · refine List.nodup_range.map ?_
    exact FrameId.text_numbered_injective.comp Nat.succ_injective

/-- Frames that are open were opened, and have the identifiers that they were given then. -/
theorem Orderly.mem_openings (h : s.Orderly) {frame : Frame} (hframe : frame ∈ s.frames) :
    frame.id ∈ s.host.openings.map Frame.id := by
  have hroot := h.root_before hframe
  have hnext : frame.id.Before s.next :=
    (List.pairwise_cons.mp h.places).1 _ (List.mem_append_left _ (List.mem_map_of_mem hframe))
  rw [h.openings]
  generalize frame.id = id at hroot hnext ⊢
  cases hroot with
  | @root n hpos =>
      cases hnext with
      | numbered _ hlt =>
          refine List.mem_map.mpr ⟨n - 1, List.mem_range.mpr (by omega), ?_⟩
          rw [Nat.sub_add_cancel hpos]

/-! ## Where the machine misses a name -/

/-- The last line of the traceback is about the step at which the error was raised, and
nothing was logged since. -/
def Pinpoints (s : State σ) (error : RuntimeError) : Prop :=
  ∃ shown entry, s.tracebackFrames.getLast? = some shown ∧ shown.entry = some entry ∧
    shown.span = error.span ∧ entry.span = error.span ∧
    entry.instruction.opcode = error.cause.rule ∧ error.stepIndex = some entry.index ∧
    s.log.back? = some entry

theorem getLast?_tracebackFrames (s : State σ) :
    ∃ name opened, s.tracebackFrames.getLast? = some (s.tracebackFrame name s.frame opened) := by
  cases h : s.frames with
  | nil =>
      refine ⟨"<document>", none, ?_⟩
      rw [tracebackFrames, frame, h]
      rfl
  | cons innermost outer =>
      refine ⟨innermost.name, innermost.span, ?_⟩
      rw [tracebackFrames, frame, h, List.reverse_cons, List.map_append, ← List.cons_append]
      exact List.getLast?_concat

theorem Logged.pinpoints {i : Instruction} {e : RuntimeError} (h : s.Logged i)
    (hspan : i.span = e.span) (hrule : i.opcode = e.cause.rule) (hstep : e.stepIndex = none) :
    s.Pinpoints (e.stamp s.lastIndex) := by
  rcases h with ⟨entry, hback, rfl, hframe⟩
  rcases getLast?_tracebackFrames s with ⟨name, opened, hlast⟩
  have hentry : s.lastEntry? s.frame = some entry := by
    rw [← hframe]
    exact lastEntry?_of_back hback
  refine ⟨_, entry, hlast, hentry, ?_, hspan, hrule, ?_, hback⟩
  · rw [tracebackFrame, hentry]
    exact hspan
  · rw [RuntimeError.stamp, hstep, lastIndex, hback]
    rfl

end State

/-- What is executed was logged just before. -/
theorem Phase.logged_of_executes {c : Setting σ} {owed : List Record} {task : Task}
    {rest : List Task} {s : State σ} {i : Instruction} (hphase : Phase c owed (task :: rest) s)
    (htask : task.Executes i) : s.Logged i := by
  cases hphase with
  | executing hlogged hexecutes hrest =>
      cases htask <;> cases hexecutes <;> exact hlogged
  | waiting s hwaiting =>
      cases hwaiting with
      | rests hrests hrest => cases htask <;> exact hrests.elim
      | step => cases htask
      | closing => cases htask
  | _ => cases htask

namespace Program

variable {p : Program} {c : Setting σ} {world : σ} {s : State σ} {e : RuntimeError}

theorem logged_of_undefined (h : p.Raises c world (.machine e) s) (hcause : e.cause.Undefined) :
    ∃ i, s.Logged i ∧ i.span = e.span ∧ i.opcode = e.cause.rule ∧ e.stepIndex = none := by
  rcases h with ⟨task, rest, before, hleads, hfails⟩
  rcases phase_of_reaches hleads with ⟨owed, episodes, texts, hphase, _⟩
  rcases hcause with ⟨name, hcause⟩
  cases hfails with
  | emitVar depth span h => exact ⟨_, hphase.logged_of_executes (.perform _ _ _), rfl, rfl, rfl⟩
  | loop depth opening body _ h =>
      exact ⟨_, hphase.logged_of_executes (.loop _ _ _ _), rfl, rfl, rfl⟩
  | _ => rcases hcause with hcause | hcause <;> cases hcause

/-- The traceback of a run tells what went on in it. -/
structure TracesTruly (p : Program) (c : Setting σ) (world : σ) : Prop where
  /-- It is about the document and the frames on the stack, outermost first. -/
  frames : List.Forall₂ (p.Depicts c world)
    (none :: (p.run c world).state.frames.reverse.map some)
    (p.run c world).state.tracebackFrames
  increasing : ((p.run c world).state.tracebackFrames.filterMap TracebackFrame.entry).Pairwise
    fun outer inner => outer.index < inner.index
  /-- All frames of the run have identifiers of their own. -/
  distinct : (FrameId.root.text ::
    (p.run c world).state.host.openings.map fun frame => frame.id.text).Nodup
  opened : ∀ tasks s, p.Reaches c world tasks s → ∀ frame ∈ s.frames,
    frame.id ∈ (p.run c world).state.host.openings.map Frame.id
  indices : (p.run c world).state.log.toList.map LogEntry.index =
    List.range (p.run c world).state.log.size
  /-- A name without a value is missed where the traceback ends, if no listener fails when
  it is told of the error. -/
  pinpoints : ∀ e s, p.Raises c world (.machine e) s → e.cause.Undefined →
    (∀ x host, c.registry.emit c.machine (.onError (e.stamp s.lastIndex)) s.host ≠
      .error x host) →
    (p.run c world).error = some (e.stamp s.lastIndex) ∧
      (p.run c world).state.Pinpoints (e.stamp s.lastIndex)

theorem tracebacks_true (p : Program) (c : Setting σ) (world : σ) : p.TracesTruly c world := by
  have horderly := orderly_run p c world
  constructor
  case frames => exact depicts_tracebackFrames p c world
  case increasing => exact horderly.entries_increasing
  case distinct => exact horderly.texts_nodup
  case opened =>
    intro tasks s hreaches frame hframe
    have hgrows := (grows_of_reaches hreaches).host.journal
    have hopened := (orderly_of_reaches hreaches).mem_openings hframe
    exact ((hgrows.filterMap Record.frame?).map Frame.id).subset hopened
  case indices => exact horderly.indices
  case pinpoints =>
    intro e s hraises hcause htold
    rcases logged_of_undefined hraises hcause with ⟨i, hlogged, hspan, hrule, hstep⟩
    have hpinpoints := hlogged.pinpoints hspan hrule hstep
    rcases Outcome.reports_iff.mp (reports_of_raises hraises) with
      ⟨host, _, hrun⟩ | ⟨failure, host, hemit, _⟩
    · rw [hrun]
      exact ⟨rfl, hpinpoints⟩
    · exact absurd hemit (htold _ _)

/-- A macro that is called for each item of an array misses a name. -/
theorem traceback_into_call :
    let c : Setting Unit :=
      ⟨"m", ⟨[], [("a", ["1", "2"])]⟩, Registry.empty, Sink.accepting, false⟩
    let source := "x\x7b\x7b a[:] | ?m; @m \"$(_item_)!\" | \"$(_)$(v)\" \x7d\x7d"
    ∃ p, compile source = .ok p ∧ p.TracesTruly c () ∧
      ((p.run c ()).state.tracebackFrames.map fun shown =>
        (shown.name, shown.entry.map LogEntry.index)) =
        [("<document>", some 1), ("a[0]", some 4), ("?m", some 6)] ∧
      ((p.run c ()).error.map fun e => (e.cause, e.stepIndex)) =
        some (.undefinedVariable "v", some 6) := by
  intro c source
  have hlines : (compile source).map (fun p =>
      (p.run c ()).state.tracebackFrames.map fun shown =>
        (shown.name, shown.entry.map LogEntry.index)) =
      .ok [("<document>", some 1), ("a[0]", some 4), ("?m", some 6)] := by
    decide +kernel
  have hfails : (compile source).map (fun p =>
      (p.run c ()).error.map fun e => (e.cause, e.stepIndex)) =
      .ok (some (.undefinedVariable "v", some 6)) := by
    decide +kernel
  cases hcompile : compile source with
  | error e =>
      rw [hcompile] at hlines
      cases hlines
  | ok p =>
      rw [hcompile] at hlines hfails
      exact ⟨p, rfl, tracebacks_true p c (), Except.ok.inj hlines, Except.ok.inj hfails⟩

end Program

end Stencil
