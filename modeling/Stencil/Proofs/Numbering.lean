import Mathlib.Data.List.Nodup
import Stencil.Proofs.Growth

/-!
# How frames and steps are numbered

Frames are numbered as they are opened, and steps as they are logged, each for the frame
that is innermost then.  So no two frames share an identifier, not even as texts.  And of
two places that are open, all that was logged in the outer was logged before all that was
logged in the inner: the inner one was opened later, and nothing is logged in the outer as
long as it is open.
-/

namespace Stencil

variable {σ : Type}

/-! ## Identifiers -/

namespace Text

theorem toList_padded (width n : Nat) :
    ∃ zeros, (padded width n).toList = List.replicate zeros '0' ++ Nat.toDigits 10 n := by
  refine ⟨width - (toString n).length, ?_⟩
  rw [padded, String.toList_append, String.toList_ofList, Nat.toString_eq_ofList_toDigits,
    String.toList_ofList]

/-- A number can be read back from its digits, and zeros in front do not matter. -/
theorem padded_injective (width : Nat) : Function.Injective (padded width) := by
  have hread : ∀ n, Nat.ofDigitChars 10 (padded width n).toList 0 = n := by
    intro n
    rcases toList_padded width n with ⟨zeros, hchars⟩
    rw [hchars, Nat.ofDigitChars_append, Nat.ofDigitChars_replicate_zero, Nat.mul_zero,
      Nat.ofDigitChars_ten_toDigits]
  intro m n h
  rw [← hread m, h, hread n]

theorem isDigit_of_mem_padded {width n : Nat} {c : Char} (h : c ∈ (padded width n).toList) :
    c.isDigit = true := by
  rcases toList_padded width n with ⟨zeros, hchars⟩
  rw [hchars, List.mem_append] at h
  rcases h with h | h
  · rw [List.eq_of_mem_replicate h]
    rfl
  · exact Nat.isDigit_of_mem_toDigits (by decide) (by decide) h

end Text

namespace FrameId

/-- The order in which frames are opened, with the root before all of them. -/
inductive Before : FrameId → FrameId → Prop where
  | root {n : Nat} (h : 0 < n) : Before root (numbered n)
  | numbered {m n : Nat} (hm : 0 < m) (h : m < n) : Before (numbered m) (numbered n)

theorem Before.trans {a b c : FrameId} (h : a.Before b) (h' : b.Before c) : a.Before c := by
  cases h' with
  | root => cases h
  | numbered hm hlt =>
      cases h with
      | root hpos => exact .root (Nat.lt_trans hpos hlt)
      | numbered hpos hlt' => exact .numbered hpos (Nat.lt_trans hlt' hlt)

theorem Before.ne {a b : FrameId} (h : a.Before b) : a ≠ b := by
  cases h with
  | root => exact FrameId.noConfusion
  | numbered hm hlt =>
      intro heq
      exact Nat.ne_of_lt hlt (FrameId.numbered.inj heq)

theorem text_numbered_injective : Function.Injective fun n => (numbered n).text := by
  intro m n h
  have hchars := congrArg String.toList h
  simp only [text, String.toList_append] at hchars
  exact Text.padded_injective 6 (String.toList_inj.mp (List.append_cancel_left hchars))

theorem text_root_ne (n : Nat) : root.text ≠ (numbered n).text := by
  intro h
  have hchars := congrArg String.toList h
  simp only [text, String.toList_append] at hchars
  have hsplit : "f_".toList ++ "root".toList = "f_".toList ++ (Text.padded 6 n).toList := hchars
  have hroot : "root".toList = (Text.padded 6 n).toList := List.append_cancel_left hsplit
  have hletter : 'r' ∈ (Text.padded 6 n).toList := by
    rw [← hroot]
    decide
  exact absurd (Text.isDigit_of_mem_padded hletter) (by decide)

end FrameId

/-! ## What a step does to the frames and to the log -/

namespace Record

/-- The frame that is opened. -/
def frame? : Record → Option Frame
  | opened frame => some frame
  | _ => none

end Record

namespace Host

variable {P : Record → Prop} {host host' : Host σ}

/-- The frames that were opened. -/
def openings (host : Host σ) : List Frame :=
  host.journal.toList.filterMap Record.frame?

theorem openings_note (host : Host σ) (record : Record) :
    (host.note record).openings = host.openings ++ record.frame?.toList := by
  rw [openings, note, Array.toList_push, List.filterMap_append]
  cases h : record.frame? with
  | none => simp [openings, h]
  | some frame => simp [openings, h]

theorem Extends.openings (h : host.Extends P host') (hP : ∀ r, P r → r.frame? = none) :
    host'.openings = host.openings := by
  rcases h with ⟨_, more, hjournal, hmore⟩
  have hnone : more.filterMap Record.frame? = [] := by
    rw [List.filterMap_eq_nil_iff]
    exact fun r hr => hP r (hmore r hr)
  rw [Host.openings, hjournal, List.filterMap_append, hnone, List.append_nil]
  rfl

end Host

namespace Record

theorem TellsOf.frame? {event : Event} {r : Record} (h : r.TellsOf event) : r.frame? = none := by
  rcases h with ⟨origin, rfl⟩
  rfl

theorem ChecksStep.frame? {context : StepContext} {r : Record} (h : r.ChecksStep context) :
    r.frame? = none := by
  rcases h with ⟨origin, rfl⟩
  rfl

theorem Filters.frame? {r : Record} (h : r.Filters) : r.frame? = none := by
  rcases h with ⟨origin, text, rfl⟩
  rfl

end Record

namespace State

/-- The same frames are open, at least by their identifiers, and neither a frame was opened
nor a step logged. -/
structure Keeps (s s' : State σ) : Prop where
  frames : s'.frames.map Frame.id = s.frames.map Frame.id
  frameCount : s'.frameCount = s.frameCount
  log : s'.log = s.log
  openings : s'.host.openings = s.host.openings

/-- All that a step may do to the frames and to the log. -/
inductive Turns (verbose : Bool) (s : State σ) : State σ → Prop where
  | keeps {s' : State σ} (h : s.Keeps s') : Turns verbose s s'
  | logs (i : Instruction) : Turns verbose s (s.logged verbose i)
  | opens (name : String) (kind : FrameKind) (span : Option Span) (values : Bindings) :
      Turns verbose s (s.opened name kind span values)
  | closes {frame : Frame} {outer : ScopeStack} (h : s.frames = frame :: outer) :
      Turns verbose s { s with frames := outer }

theorem keeps_host {s : State σ} {host : Host σ} (h : host.openings = s.host.openings) :
    s.Keeps { s with host := host } :=
  ⟨rfl, rfl, rfl, h⟩

end State

section Steps

variable {c : Setting σ} {macros : MacroTable} {task : Task} {s s' : State σ} {x : Failure}

/-! Hooks open no frames, whether they fail or not. -/

theorem State.keeps_of_emit {event : Event} {r : EStateM.Result HookError (Host σ) Unit}
    (h : c.registry.emit c.machine event s.host = r) :
    s.Keeps { s with host := Host.ofResult r } := by
  rw [← h]
  have hextends := c.registry.extends_emit c.machine event s.host
  exact keeps_host (hextends.openings fun _ => Record.TellsOf.frame?)

theorem State.keeps_of_afterStep {context : StepContext}
    {r : EStateM.Result HookError (Host σ) Unit}
    (h : c.registry.afterStep c.machine context s.host = r) :
    s.Keeps { s with host := Host.ofResult r } := by
  rw [← h]
  have hextends := c.registry.extends_afterStep c.machine context s.host
  exact keeps_host (hextends.openings fun _ => Record.ChecksStep.frame?)

theorem State.keeps_of_filterOutput {text : String}
    {r : EStateM.Result HookError (Host σ) String}
    (h : c.registry.filterOutput c.machine text s.host = r) :
    s.Keeps { s with host := Host.ofResult r } := by
  rw [← h]
  have hextends := c.registry.extends_filterOutput c.machine text s.host
  exact keeps_host (hextends.openings fun _ => Record.Filters.frame?)

theorem Task.turns_of_steps {new : List Task} (h : task.Steps c macros s new s') :
    s.Turns c.verbose s' := by
  cases h with
  | announce h => exact .keeps (State.keeps_of_emit h)
  | rules h => exact .keeps (State.keeps_of_afterStep h)
  | filter h => exact .keeps (State.keeps_of_filterOutput h)
  | @deliver text s h =>
      refine .keeps (State.keeps_host ?_)
      exact (Host.openings_note s.host (.write text)).trans (List.append_nil _)
  | log i s => exact .logs i
  | pushScope depth span s => exact .opens _ _ _ _
  | item depth array span body index item rest s => exact .opens _ _ _ _
  | invoke depth span m text s => exact .opens _ _ _ _
  | leave h => exact .closes h
  | bind name text h =>
      refine .keeps ⟨?_, rfl, rfl, rfl⟩
      rw [h]
      rfl
  | _ => exact .keeps ⟨rfl, rfl, rfl, rfl⟩

theorem Task.keeps_of_fails (h : task.Fails c macros s x s') : s.Keeps s' := by
  cases h with
  | announce h => exact State.keeps_of_emit h
  | rules h => exact State.keeps_of_afterStep h
  | filter h => exact State.keeps_of_filterOutput h
  | _ => exact ⟨rfl, rfl, rfl, rfl⟩

theorem Outcome.Reports.keeps {outcome : Outcome σ} (h : Reports c s x outcome) :
    s.Keeps outcome.state := by
  rcases h.state with ⟨host, hstate, hextends⟩
  rw [hstate]
  exact State.keeps_host (hextends.openings fun _ => Record.TellsOf.frame?)

end Steps

/-! ## Order -/

namespace State

variable {verbose : Bool} {s s' : State σ}

/-- The identifier of the frame that is opened next. -/
def next (s : State σ) : FrameId :=
  .numbered (s.frameCount + 1)

/-- The places that are open: the frames on the stack, innermost first, and the root. -/
def places (s : State σ) : List FrameId :=
  s.frames.map Frame.id ++ [.root]

/-- The step that is logged for an instruction. -/
def entry (verbose : Bool) (i : Instruction) (s : State σ) : LogEntry :=
  ⟨s.log.size, s.frame, i, if verbose then some (ScopeStack.visible s.frames) else none⟩

/-- All that was logged in one place was logged before all that was logged in the other. -/
def Precedes (s : State σ) (outer inner : FrameId) : Prop :=
  ∀ earlier ∈ s.log.toList, ∀ later ∈ s.log.toList, earlier.frame = outer →
    later.frame = inner → earlier.index < later.index

/-- Frames and steps are numbered, and the places that are open are in order. -/
structure Orderly (s : State σ) : Prop where
  openings : s.host.openings.map Frame.id =
    (List.range s.frameCount).map fun n => .numbered (n + 1)
  places : (s.next :: s.places).Pairwise fun inner outer => outer.Before inner
  indices : s.log.toList.map LogEntry.index = List.range s.log.size
  known : ∀ entry ∈ s.log.toList, entry.frame.Before s.next
  ordered : s.places.Pairwise fun inner outer => s.Precedes outer inner

theorem log_logged (verbose : Bool) (i : Instruction) (s : State σ) :
    (s.logged verbose i).log.toList = s.log.toList ++ [s.entry verbose i] :=
  Array.toList_push

/-- The innermost place comes first, after all others were opened. -/
theorem places_eq (s : State σ) :
    ∃ outer, s.places = s.frame :: outer := by
  cases h : s.frames with
  | nil => exact ⟨[], by simp [places, frame, h]⟩
  | cons frame outer => exact ⟨outer.map Frame.id ++ [.root], by simp [places, State.frame, h]⟩

theorem orderly_initial (world : σ) : (State.initial world).Orderly where
  openings := rfl
  places := by
    refine List.pairwise_cons.mpr ⟨?_, List.pairwise_singleton _ _⟩
    exact List.forall_mem_singleton.mpr (.root Nat.one_pos)
  indices := rfl
  known := List.forall_mem_nil _
  ordered := List.pairwise_singleton _ _

namespace Orderly

theorem index_lt (h : s.Orderly) {entry : LogEntry} (hentry : entry ∈ s.log.toList) :
    entry.index < s.log.size := by
  have hmem : entry.index ∈ s.log.toList.map LogEntry.index := List.mem_map_of_mem hentry
  rw [h.indices] at hmem
  exact List.mem_range.mp hmem

theorem sorted (h : s.Orderly) :
    s.log.toList.Pairwise fun earlier later => earlier.index < later.index := by
  have hindices : (s.log.toList.map LogEntry.index).Pairwise (· < ·) := by
    rw [h.indices]
    exact List.pairwise_lt_range
  exact List.pairwise_map.mp hindices

theorem frame_before_next (h : s.Orderly) : s.frame.Before s.next := by
  rcases places_eq s with ⟨outer, hplaces⟩
  apply (List.pairwise_cons.mp h.places).1
  rw [hplaces]
  exact List.mem_cons_self

theorem root_before (h : s.Orderly) {frame : Frame} (hframe : frame ∈ s.frames) :
    FrameId.root.Before frame.id := by
  have hplaces := (List.pairwise_cons.mp h.places).2
  rw [State.places, List.pairwise_append] at hplaces
  exact hplaces.2.2 frame.id (List.mem_map_of_mem hframe) .root List.mem_cons_self

theorem keeps (h : s.Orderly) (hkeeps : s.Keeps s') : s'.Orderly := by
  rcases hkeeps with ⟨hframes, hcount, hlog, hopenings⟩
  have hnext : s'.next = s.next := by rw [next, next, hcount]
  have hplaces : s'.places = s.places := by rw [State.places, State.places, hframes]
  constructor
  · rw [hopenings, hcount, h.openings]
  · rw [hnext, hplaces]
    exact h.places
  · rw [hlog, h.indices]
  · rw [hlog, hnext]
    exact h.known
  · rw [hplaces]
    unfold Precedes
    rw [hlog]
    exact h.ordered

/-- Whatever is logged next belongs to the innermost place, and comes after all others. -/
theorem logs (h : s.Orderly) (verbose : Bool) (i : Instruction) :
    (s.logged verbose i).Orderly where
  openings := by
    have hnote : (s.host.note (.logged s.log.size)).openings = s.host.openings :=
      (Host.openings_note _ _).trans (List.append_nil _)
    exact (congrArg (List.map Frame.id) hnote).trans h.openings
  places := h.places
  indices := by
    have hsize : (s.logged verbose i).log.size = s.log.size + 1 := Array.size_push _
    rw [log_logged, hsize, List.range_succ, List.map_append, h.indices]
    rfl
  known := by
    rw [log_logged]
    exact List.forall_mem_append.mpr ⟨h.known, List.forall_mem_singleton.mpr h.frame_before_next⟩
  ordered := by
    change s.places.Pairwise _
    -- an outer place is never the innermost one, where the step is logged
    have houter : s.places.Pairwise fun _ outer => outer ≠ s.frame := by
      have hplaces := (List.pairwise_cons.mp h.places).2
      rcases places_eq s with ⟨outer, heq⟩
      rw [heq, List.pairwise_cons] at hplaces ⊢
      have hne : ∀ id ∈ outer, id ≠ s.frame := fun id hid => (hplaces.1 id hid).ne
      exact ⟨hne, hplaces.2.imp_of_mem fun _ hb _ => hne _ hb⟩
    refine (h.ordered.and houter).imp ?_
    rintro inner outer ⟨hprecedes, hne⟩ earlier hearlier later hlater hframe hframe'
    rw [log_logged, List.mem_append, List.mem_singleton] at hearlier hlater
    rcases hearlier with hearlier | rfl
    · rcases hlater with hlater | rfl
      · exact hprecedes earlier hearlier later hlater hframe hframe'
      · exact h.index_lt hearlier
    · exact absurd hframe.symm hne

/-- Nothing is logged yet in a frame that is opened. -/
theorem opens (h : s.Orderly) (name : String) (kind : FrameKind) (span : Option Span)
    (values : Bindings) : (s.opened name kind span values).Orderly where
  openings := by
    change (s.host.note _).openings.map Frame.id = (List.range (s.frameCount + 1)).map _
    rw [Host.openings_note, List.map_append, h.openings, List.range_succ, List.map_append]
    rfl
  places := by
    have hlater : s.next.Before (.numbered (s.frameCount + 2)) :=
      .numbered (Nat.succ_pos _) (Nat.lt_succ_self _)
    refine List.pairwise_cons.mpr ⟨?_, h.places⟩
    refine List.forall_mem_cons.mpr ⟨hlater, fun id hid => ?_⟩
    exact ((List.pairwise_cons.mp h.places).1 id hid).trans hlater
  indices := h.indices
  known := fun entry hentry =>
    (h.known entry hentry).trans (.numbered (Nat.succ_pos _) (Nat.lt_succ_self _))
  ordered := by
    refine List.pairwise_cons.mpr ⟨?_, h.ordered⟩
    intro outer _ _ _ later hlater _ hframe
    exact absurd hframe (h.known later hlater).ne

theorem closes (h : s.Orderly) {frame : Frame} {outer : ScopeStack}
    (hframes : s.frames = frame :: outer) : State.Orderly { s with frames := outer } := by
  have hplaces : s.places = frame.id :: (outer.map Frame.id ++ [.root]) := by
    rw [State.places, hframes]
    rfl
  have hnext := h.places
  have hordered := h.ordered
  rw [hplaces] at hnext hordered
  constructor
  · exact h.openings
  · exact hnext.sublist ((List.sublist_cons_self _ _).cons_cons _)
  · exact h.indices
  · exact h.known
  · exact (List.pairwise_cons.mp hordered).2

theorem turns (h : s.Orderly) (hturns : s.Turns verbose s') : s'.Orderly := by
  cases hturns with
  | keeps hkeeps => exact h.keeps hkeeps
  | logs i => exact h.logs verbose i
  | opens name kind span values => exact h.opens name kind span values
  | closes hframes => exact h.closes hframes

end Orderly

end State

/-! ## Runs -/

theorem Agenda.orderly_of_leads {c : Setting σ} {macros : MacroTable} {tasks tasks' : List Task}
    {s s' : State σ} (h : Leads c macros tasks s tasks' s') (hs : s.Orderly) : s'.Orderly := by
  induction h with
  | refl => exact hs
  | step hstep _ ih => exact ih (hs.turns (Task.turns_of_steps hstep))

namespace Program

variable {p : Program} {c : Setting σ} {world : σ} {tasks : List Task} {s : State σ}

theorem orderly_of_reaches (h : p.Reaches c world tasks s) : s.Orderly :=
  Agenda.orderly_of_leads h (State.orderly_initial world)

/-- A run ends as its last step leaves it, but for the records that the failing of a hook
and the report of an error add. -/
theorem ends_as_reached (p : Program) (c : Setting σ) (world : σ) :
    ∃ tasks s, p.Reaches c world tasks s ∧ s.Keeps (p.run c world).state := by
  rcases completes_or_raises p c world with ⟨s, hreaches⟩ | ⟨x, s', hraises⟩
  · rw [run_of_reaches hreaches]
    exact ⟨[], s, hreaches, rfl, rfl, rfl, rfl⟩
  · have hreports := (reports_of_raises hraises).keeps
    rcases hraises with ⟨task, rest, s, hleads, hfails⟩
    have hkeeps := Task.keeps_of_fails hfails
    exact ⟨task :: rest, s, hleads, hreports.frames.trans hkeeps.frames,
      hreports.frameCount.trans hkeeps.frameCount, hreports.log.trans hkeeps.log,
      hreports.openings.trans hkeeps.openings⟩

theorem orderly_run (p : Program) (c : Setting σ) (world : σ) :
    (p.run c world).state.Orderly := by
  rcases ends_as_reached p c world with ⟨tasks, s, hreaches, hkeeps⟩
  exact (orderly_of_reaches hreaches).keeps hkeeps

/-- Whatever a run comes to, it ends with no less. -/
theorem grows_of_reaches (h : p.Reaches c world tasks s) : s.Grows (p.run c world).state := by
  rcases Agenda.completes_or_raises c p.macros tasks s with ⟨s', hleads⟩ | ⟨x, s', hraises⟩
  · rw [run_of_reaches (h.trans hleads)]
    exact Agenda.grows_of_leads hleads
  · rcases hraises with ⟨task, rest, before, hleads, hfails⟩
    have hraises : p.Raises c world x s' := ⟨task, rest, before, h.trans hleads, hfails⟩
    have hsteps := (Agenda.grows_of_leads hleads).trans (Task.grows_of_fails hfails)
    exact hsteps.trans (grows_run_of_raises hraises)

end Program

end Stencil
