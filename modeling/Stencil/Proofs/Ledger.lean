import Stencil.Proofs.Figures
import Stencil.Proofs.Numbering

/-!
# The figures of a run, step by step

Between two steps of a run the figures need not agree with what has happened so far: a step
may be logged and not yet counted, a text counted and not yet written.  What is missing can
be told from the tasks that are left.  So the figures and the tasks together balance what
has happened, and no step disturbs the balance.  When no task is left the figures are right;
when a run fails its steps and its characters are, since what counts them stands in front of
all other tasks.
-/

namespace Stencil

variable {σ : Type}

/-! ## Counting opcodes -/

namespace Entries

variable {κ α : Type} [DecidableEq κ] {key other : κ} {value : α} {entries : List (κ × α)}

theorem mem_keys_set :
    other ∈ (set key value entries).map Prod.fst ↔
      other = key ∨ other ∈ entries.map Prod.fst := by
  induction entries with
  | nil => simp [set]
  | cons entry entries ih =>
      rcases entry with ⟨k, v⟩
      rw [set]
      split
      · rename_i hk
        simp [hk]
      · simp only [List.map_cons, List.mem_cons, ih]
        exact or_left_comm

theorem nodup_set (h : (entries.map Prod.fst).Nodup) :
    ((set key value entries).map Prod.fst).Nodup := by
  induction entries with
  | nil => exact List.nodup_singleton key
  | cons entry entries ih =>
      rcases entry with ⟨k, v⟩
      rcases List.nodup_cons.mp h with ⟨hfirst, hrest⟩
      rw [set]
      split
      · exact h
      · rename_i hk
        refine List.nodup_cons.mpr ⟨fun hmem => ?_, ih hrest⟩
        rcases mem_keys_set.mp hmem with heq | hmem
        · exact hk heq
        · exact hfirst hmem

end Entries

/-- There is one entry for each opcode that occurs, with the number of times it does. -/
structure Histogram (opcodes : List String) (entries : List (String × Nat)) : Prop where
  keys : (entries.map Prod.fst).Nodup
  counts : ∀ opcode, entries.lookup opcode =
    if opcode ∈ opcodes then some (opcodes.count opcode) else none

namespace Histogram

variable {opcodes : List String} {entries : List (String × Nat)}

theorem nil : Histogram [] [] where
  keys := List.nodup_nil
  counts := fun _ => rfl

theorem getD_lookup (h : Histogram opcodes entries) (opcode : String) :
    (entries.lookup opcode).getD 0 = opcodes.count opcode := by
  rw [h.counts]
  split
  · rfl
  · rename_i hmem
    exact (List.count_eq_zero_of_not_mem hmem).symm

theorem concat {stats : RunStats} (h : Histogram opcodes stats.opcodes) (opcode : String) :
    Histogram (opcodes ++ [opcode]) (stats.countStep opcode).opcodes where
  keys := Entries.nodup_set h.keys
  counts := by
    intro other
    rw [RunStats.countStep, Entries.lookup_set, h.getD_lookup, List.count_append]
    by_cases heq : other = opcode
    · simp [heq]
    · rw [if_neg heq, h.counts]
      have hcount : [opcode].count other = 0 :=
        List.count_eq_zero_of_not_mem (mt List.mem_singleton.mp heq)
      simp [heq, hcount]

end Histogram

/-! ## What has happened in a run -/

/-- The opcodes of the steps that were logged. -/
def opcodesOf (log : Array LogEntry) : List String :=
  log.toList.map fun entry => entry.instruction.opcode

namespace Host

/-- The number of characters that reached the sink. -/
def charCount (host : Host σ) : Nat :=
  (String.join host.written.toList).length

/-- The number of frames that were opened for items. -/
def itemCount (host : Host σ) : Nat :=
  host.openings.countP fun frame => frame.kind = .iteration

end Host

/-- The figures are those of a run that ended so: the opcodes and the characters in any case,
the macro calls and the items if it did not fail. -/
structure RunStats.Describes (stats : RunStats) (error : Option RuntimeError)
    (log : Array LogEntry) (host : Host σ) : Prop where
  opcodes : Histogram (opcodesOf log) stats.opcodes
  chars : stats.chars = host.charCount
  macroCalls : error = none → stats.macroCalls = (opcodesOf log).count "BEGIN_MACRO_CALL"
  items : error = none → stats.items = host.itemCount

theorem opcodesOf_logged (verbose : Bool) (i : Instruction) (s : State σ) :
    opcodesOf (s.logged verbose i).log = opcodesOf s.log ++ [i.opcode] := by
  rw [opcodesOf, State.logged, Array.toList_push, List.map_append]
  rfl

namespace Host

variable {P : Record → Prop} {host host' : Host σ}

theorem Extends.of_ok {α : Type} {m : HostM σ α} {a : α}
    (h : host.Extends P (ofResult (m host))) (hok : m host = .ok a host') :
    host.Extends P host' := by
  rw [hok] at h
  exact h

theorem Extends.of_error {α : Type} {m : HostM σ α} {e : HookError}
    (h : host.Extends P (ofResult (m host))) (hfails : m host = .error e host') :
    host.Extends P host' := by
  rw [hfails] at h
  exact h

theorem Extends.charCount (h : host.Extends P host') : host'.charCount = host.charCount := by
  rw [Host.charCount, h.written]
  rfl

theorem Extends.itemCount (h : host.Extends P host') (hP : ∀ r, P r → r.frame? = none) :
    host'.itemCount = host.itemCount := by
  rw [Host.itemCount, h.openings hP]
  rfl

theorem charCount_write (text : String) (host : Host σ) :
    (host.write text).charCount = host.charCount + text.length := by
  rw [charCount, write, Array.toList_push, String.join_append, String.length_append]
  simp [charCount]

theorem itemCount_note (host : Host σ) (record : Record) :
    (host.note record).itemCount =
      host.itemCount + record.frame?.toList.countP fun frame => frame.kind = .iteration := by
  rw [itemCount, openings_note, List.countP_append]
  rfl

end Host

/-! ## What is left to be counted -/

namespace Task

/-- What stands in front of all other tasks whenever there is one. -/
def Urgent : Task → Prop
  | rules _ | deliver _ => True
  | _ => False

def Starts : Task → Prop
  | announce event => event.kind = .programStart
  | _ => False

/-- The macro calls that are logged and not yet counted. -/
def owesCalls : Task → Nat
  | perform _ _ (.beginMacroCall _ _) | enter _ _ _ | announce (.macroCall _) => 1
  | _ => 0

/-- The macro calls that are neither logged nor counted. -/
def awaitsCalls : Task → Nat
  | log i => if i.opcode = "BEGIN_MACRO_CALL" then 1 else 0
  | _ => 0

/-- The items that are to be counted. -/
def owesItems : Task → Nat
  | announce (.arrayIter iteration) => iteration.items.length
  | _ => 0

/-- The items whose frames are to be opened. -/
def awaitsItems : Task → Nat
  | items _ _ _ _ _ found => found.length
  | _ => 0

/-- The opcode that is logged and not yet counted. -/
def uncounted : List Task → List String
  | rules context :: _ => [context.opcode]
  | _ => []

/-- The number of characters that are counted and not yet written. -/
def unwritten : List Task → Nat
  | deliver text :: _ => text.length
  | _ => 0

def total (amount : Task → Nat) : List Task → Nat
  | [] => 0
  | task :: tasks => amount task + total amount tasks

theorem total_append (amount : Task → Nat) (first second : List Task) :
    total amount (first ++ second) = total amount first + total amount second := by
  induction first with
  | nil => exact (Nat.zero_add _).symm
  | cons task first ih => rw [List.cons_append, total, total, ih, Nat.add_assoc]

section Urgent

variable {rest : List Task} (h : ∀ task ∈ rest, ¬task.Urgent) (new : List Task)
include h

theorem uncounted_append : uncounted (new ++ rest) = uncounted new := by
  cases new with
  | cons task new => cases task <;> rfl
  | nil =>
      cases rest with
      | nil => rfl
      | cons task rest =>
          cases task with
          | rules context => exact absurd trivial (h _ List.mem_cons_self)
          | _ => rfl

theorem unwritten_append : unwritten (new ++ rest) = unwritten new := by
  cases new with
  | cons task new => cases task <;> rfl
  | nil =>
      cases rest with
      | nil => rfl
      | cons task rest =>
          cases task with
          | deliver text => exact absurd trivial (h _ List.mem_cons_self)
          | _ => rfl

end Urgent

/-! ## Steps -/

section Steps

variable {owner : String} {c : Setting World} {macros : MacroTable} {task : Task}
  {new : List Task} {s s' : State World}

theorem urgent_of_steps (hstep : task.Steps c macros s new s') :
    ∀ next ∈ new.tail, ¬next.Urgent := by
  cases hstep <;> simp [Urgent]

theorem starts_of_steps (hstep : task.Steps c macros s new s') :
    ∀ next ∈ new, ¬next.Starts := by
  cases hstep <;> simp [Starts, Event.kind]

variable (hc : Statistics.Among owner c.registry) (hstep : task.Steps c macros s new s')
  (hstart : ¬task.Starts)
include hc hstep hstart

theorem opcodes_of_steps {counted : List String}
    (h : Histogram counted (s.host.world.statsOf c.machine).opcodes)
    (hlog : opcodesOf s.log = counted ++ uncounted [task]) :
    ∃ counted', Histogram counted' (s'.host.world.statsOf c.machine).opcodes ∧
      opcodesOf s'.log = counted' ++ uncounted new := by
  cases hstep with
  | log i s =>
      refine ⟨counted, h, ?_⟩
      rw [opcodesOf_logged, hlog]
      exact congrArg (· ++ _) (List.append_nil counted)
  | @rules context s host hok =>
      refine ⟨counted ++ [context.opcode], ?_, hlog.trans (List.append_nil _).symm⟩
      rw [hc.statsOf_afterStep hok]
      exact h.concat context.opcode
  | announce hok =>
      refine ⟨counted, ?_, hlog⟩
      rw [hc.statsOf_emit hok, (Event.tally_of_ne hstart _).1]
      exact h
  | filter hok =>
      refine ⟨counted, ?_, hlog⟩
      rw [hc.statsOf_filterOutput hok]
      exact h
  | _ => exact ⟨counted, h, hlog⟩

theorem chars_of_steps
    (h : (s.host.world.statsOf c.machine).chars = s.host.charCount + unwritten [task]) :
    (s'.host.world.statsOf c.machine).chars = s'.host.charCount + unwritten new := by
  cases hstep with
  | @announce event s host hok =>
      have hextends := (c.registry.extends_emit c.machine event s.host).of_ok hok
      rw [hc.statsOf_emit hok, (Event.tally_of_ne hstart _).2, hextends.charCount]
      exact h
  | @rules context s host hok =>
      have hextends := (c.registry.extends_afterStep c.machine context s.host).of_ok hok
      rw [hc.statsOf_afterStep hok, hextends.charCount]
      exact h
  | @filter text filtered s host hok =>
      have hextends := (c.registry.extends_filterOutput c.machine text s.host).of_ok hok
      rw [hc.statsOf_filterOutput hok, hextends.charCount]
      exact congrArg (· + filtered.length) h
  | @deliver text s htaken => exact h.trans (Host.charCount_write text s.host).symm
  | _ => exact h

theorem macroCalls_of_steps :
    (s'.host.world.statsOf c.machine).macroCalls + total owesCalls new +
        ((opcodesOf s.log).count "BEGIN_MACRO_CALL" + awaitsCalls task) =
      (s.host.world.statsOf c.machine).macroCalls + owesCalls task +
        ((opcodesOf s'.log).count "BEGIN_MACRO_CALL" + total awaitsCalls new) := by
  cases hstep with
  | log i s =>
      rw [opcodesOf_logged, List.count_append, List.count_singleton]
      simp [total, owesCalls, awaitsCalls, State.logged, Host.note]
  | rules hok =>
      rw [hc.statsOf_afterStep hok]
      rfl
  | @announce event s host hok =>
      rw [hc.statsOf_emit hok]
      cases event with
      | programStart p => exact absurd rfl hstart
      | _ => rfl
  | filter hok =>
      rw [hc.statsOf_filterOutput hok]
      rfl
  | step depth action span rest s =>
      cases action with
      | beginMacroCall name block =>
          simp only [total, owesCalls, awaitsCalls, Instruction.opcode, Instruction.of,
            Operation.opcode, Action.opcode, if_pos]
          omega
      | _ => rfl
  | _ => rfl

theorem items_of_steps :
    (s'.host.world.statsOf c.machine).items + total owesItems new +
        (s.host.itemCount + awaitsItems task) =
      (s.host.world.statsOf c.machine).items + owesItems task +
        (s'.host.itemCount + total awaitsItems new) := by
  cases hstep with
  | log i s =>
      rw [State.logged, Host.itemCount_note]
      rfl
  | @rules context s host hok =>
      have hextends := (c.registry.extends_afterStep c.machine context s.host).of_ok hok
      rw [hc.statsOf_afterStep hok, hextends.itemCount fun _ => Record.ChecksStep.frame?]
      rfl
  | @announce event s host hok =>
      have hextends := (c.registry.extends_emit c.machine event s.host).of_ok hok
      rw [hc.statsOf_emit hok, hextends.itemCount fun _ => Record.TellsOf.frame?]
      cases event with
      | programStart p => exact absurd rfl hstart
      | _ => rfl
  | @filter text filtered s host hok =>
      have hextends := (c.registry.extends_filterOutput c.machine text s.host).of_ok hok
      rw [hc.statsOf_filterOutput hok, hextends.itemCount fun _ => Record.Filters.frame?]
      rfl
  | @deliver text s htaken =>
      have hcount : (s.host.write text).itemCount = s.host.itemCount :=
        s.host.itemCount_note (.write text)
      rw [hcount]
      rfl
  | pushScope depth span s =>
      rw [State.opened, Host.itemCount_note]
      rfl
  | item depth array span body index item rest s =>
      rw [State.opened, Host.itemCount_note]
      change (s.host.world.statsOf c.machine).items + 0 +
          (s.host.itemCount + (rest.length + 1)) =
        (s.host.world.statsOf c.machine).items + 0 +
          (s.host.itemCount + 1 + (0 + (0 + (rest.length + 0))))
      omega
  | invoke depth span m text s =>
      rw [State.opened, Host.itemCount_note]
      rfl
  | loop depth opening body s h =>
      simp only [total, owesItems, awaitsItems]
      omega
  | _ => rfl

end Steps

end Task

/-- The figures of the machine, and what the tasks have begun, balance what has happened, and
what the tasks are still to do. -/
structure Ledger (machine : String) (tasks : List Task) (s : State World) : Prop where
  opcodes : ∃ counted, Histogram counted (s.host.world.statsOf machine).opcodes ∧
    opcodesOf s.log = counted ++ Task.uncounted tasks
  chars : (s.host.world.statsOf machine).chars = s.host.charCount + Task.unwritten tasks
  macroCalls : (s.host.world.statsOf machine).macroCalls + Task.total Task.owesCalls tasks =
    (opcodesOf s.log).count "BEGIN_MACRO_CALL" + Task.total Task.awaitsCalls tasks
  items : (s.host.world.statsOf machine).items + Task.total Task.owesItems tasks =
    s.host.itemCount + Task.total Task.awaitsItems tasks
  urgent : ∀ task ∈ tasks.tail, ¬task.Urgent
  started : ∀ task ∈ tasks, ¬task.Starts

/-- A listener for the start or a step rule may fail before the one that counts is called,
and what a sink refuses is counted all the same. -/
def Failure.Miscounts : Failure → Prop
  | handler (.event .programStart) _ | handler .stepRule _ | breakdown (.sinkRefused _) => True
  | _ => False

namespace Ledger

variable {owner machine : String} {c : Setting World} {macros : MacroTable} {task : Task}
  {new rest tasks tasks' : List Task} {s s' : State World} {x : Failure}

theorem step (hc : Statistics.Among owner c.registry) (hstep : task.Steps c macros s new s')
    (h : Ledger c.machine (task :: rest) s) : Ledger c.machine (new ++ rest) s' := by
  rcases List.forall_mem_cons.mp h.started with ⟨hstart, hrest⟩
  have hurgent : ∀ next ∈ rest, ¬next.Urgent := h.urgent
  have huncounted : Task.uncounted (task :: rest) = Task.uncounted [task] :=
    Task.uncounted_append hurgent [task]
  have hunwritten : Task.unwritten (task :: rest) = Task.unwritten [task] :=
    Task.unwritten_append hurgent [task]
  constructor
  case opcodes =>
    rcases h.opcodes with ⟨counted, hcounted, hlog⟩
    rw [huncounted] at hlog
    rw [Task.uncounted_append hurgent]
    exact Task.opcodes_of_steps hc hstep hstart hcounted hlog
  case chars =>
    have hchars := h.chars
    rw [hunwritten] at hchars
    rw [Task.unwritten_append hurgent]
    exact Task.chars_of_steps hc hstep hstart hchars
  case macroCalls =>
    have hcalls := h.macroCalls
    have hchange := Task.macroCalls_of_steps hc hstep hstart
    rw [Task.total, Task.total] at hcalls
    rw [Task.total_append, Task.total_append]
    omega
  case items =>
    have hitems := h.items
    have hchange := Task.items_of_steps hc hstep hstart
    rw [Task.total, Task.total] at hitems
    rw [Task.total_append, Task.total_append]
    omega
  case urgent =>
    cases new with
    | nil => exact fun next hnext => h.urgent next (List.mem_of_mem_tail hnext)
    | cons first new =>
        exact List.forall_mem_append.mpr ⟨Task.urgent_of_steps hstep, hurgent⟩
  case started => exact List.forall_mem_append.mpr ⟨Task.starts_of_steps hstep, hrest⟩

theorem leads (hc : Statistics.Among owner c.registry)
    (hleads : Agenda.Leads c macros tasks s tasks' s') (h : Ledger c.machine tasks s) :
    Ledger c.machine tasks' s' := by
  induction hleads with
  | refl tasks s => exact h
  | step hstep _ ih => exact ih (h.step hc hstep)

/-- Nothing is logged that is not counted. -/
theorem histogram (h : Ledger machine tasks s) (hnone : Task.uncounted tasks = []) :
    Histogram (opcodesOf s.log) (s.host.world.statsOf machine).opcodes := by
  rcases h.opcodes with ⟨counted, hcounted, hlog⟩
  rw [hnone, List.append_nil] at hlog
  rw [hlog]
  exact hcounted

/-- What a run is at when it fails has nothing left to be counted of the steps and the
characters before it. -/
theorem fails (hc : Statistics.Among owner c.registry) (h : Ledger c.machine (task :: rest) s)
    (hfails : task.Fails c macros s x s') (hx : ¬x.Miscounts) :
    Histogram (opcodesOf s'.log) (s'.host.world.statsOf c.machine).opcodes ∧
      (s'.host.world.statsOf c.machine).chars = s'.host.charCount := by
  cases hfails with
  | rules hfails => exact absurd trivial hx
  | deliver hfails => exact absurd trivial hx
  | @announce event s e host hfails =>
      have hstart : event.kind ≠ .programStart := h.started _ List.mem_cons_self
      have hextends := (c.registry.extends_emit c.machine event s.host).of_error hfails
      rcases hc.counts_of_emit_error hstart hfails with ⟨hopcodes, hchars⟩
      rw [hopcodes, hchars, hextends.charCount]
      exact ⟨h.histogram rfl, h.chars⟩
  | @filter text s e host hfails =>
      have hextends := (c.registry.extends_filterOutput c.machine text s.host).of_error hfails
      rw [hc.statsOf_filterOutput_error hfails, hextends.charCount]
      exact ⟨h.histogram rfl, h.chars⟩
  | _ => exact ⟨h.histogram rfl, h.chars⟩

/-- When the listeners for the start were told, nothing is counted and nothing has happened. -/
theorem start (hc : Statistics.Among owner c.registry) (p : Program) {world : World}
    {host : Host World}
    (hok : c.registry.emit c.machine (.programStart p) (Host.initial world) = .ok () host) :
    Ledger c.machine [.fragment (Exec.callDepth p.macros) p.instructions, .announce .programEnd]
      { (State.initial world : State World) with host := host } := by
  have hextends :=
    (c.registry.extends_emit c.machine (.programStart p) (Host.initial world)).of_ok hok
  have hfigures : host.world.statsOf c.machine = {} := hc.statsOf_emit hok
  constructor
  case opcodes =>
    refine ⟨[], ?_, rfl⟩
    rw [hfigures]
    exact .nil
  case chars =>
    rw [hfigures, hextends.charCount]
    rfl
  case macroCalls =>
    rw [hfigures]
    rfl
  case items =>
    rw [hfigures, hextends.itemCount fun _ => Record.TellsOf.frame?]
    rfl
  case urgent => simp [Task.Urgent]
  case started => simp [Task.Starts, Event.kind]

/-- The report of an error counts nothing. -/
theorem reports (hc : Statistics.Among owner c.registry) {outcome : Outcome World}
    (h : Outcome.Reports c s x outcome) :
    outcome.state.log = s.log ∧
      outcome.state.host.world.statsOf c.machine = s.host.world.statsOf c.machine ∧
      outcome.state.host.charCount = s.host.charCount := by
  have hreport : HostM.Preserves (fun world : World => world.statsOf c.machine)
      (c.registry.emit c.machine (.onError ((x.error s.lastSpan).stamp s.lastIndex))) :=
    hc.preserves_onError _
  have hextends := c.registry.extends_emit c.machine
    (.onError ((x.error s.lastSpan).stamp s.lastIndex)) s.host
  rcases Outcome.reports_iff.mp h with ⟨host, hok, rfl⟩ | ⟨failure, host, hfails, rfl⟩
  · exact ⟨rfl, hreport.of_eq hok, (hextends.of_ok hok).charCount⟩
  · exact ⟨rfl, hreport.of_eq hfails, (hextends.of_error hfails).charCount⟩

end Ledger

/-! ## Runs -/

namespace Program

/-- What is raised is an error of the run. -/
theorem error_of_raises {p : Program} {c : Setting σ} {world : σ} {x : Failure} {s : State σ}
    (h : p.Raises c world x s) : (p.run c world).error ≠ none := by
  have hreports := reports_of_raises h
  generalize p.run c world = outcome at hreports
  cases hreports with
  | told => exact Option.some_ne_none _
  | replaced => exact Option.some_ne_none _

variable {owner : String} {p : Program} {c : Setting World} {world : World}

theorem ledger_of_reaches (hc : Statistics.Among owner c.registry) {tasks : List Task}
    {s : State World} (h : p.Reaches c world tasks s) :
    (tasks = p.agenda ∧ s = State.initial world) ∨ Ledger c.machine tasks s := by
  cases h with
  | refl => exact .inl ⟨rfl, rfl⟩
  | step hstep hrest =>
      cases hstep with
      | announce hok => exact .inr ((Ledger.start hc p hok).leads hc hrest)

/-- Whatever the outcome of a run, unless something fails that counting rests on, the figures
of its machine are those of the run. -/
theorem describes_run (hc : Statistics.Among owner c.registry)
    (hcounts : ∀ x s, p.Raises c world x s → ¬x.Miscounts) :
    ((p.run c world).state.host.world.statsOf c.machine).Describes (p.run c world).error
      (p.run c world).state.log (p.run c world).state.host := by
  rcases completes_or_raises p c world with ⟨s, hreaches⟩ | ⟨x, s, hraises⟩
  · rw [run_of_reaches hreaches]
    rcases ledger_of_reaches hc hreaches with ⟨hagenda, _⟩ | hledger
    · cases hagenda
    · exact ⟨hledger.histogram rfl, hledger.chars, fun _ => hledger.macroCalls,
        fun _ => hledger.items⟩
  · have hx := hcounts x s hraises
    have hcounted : Histogram (opcodesOf s.log) (s.host.world.statsOf c.machine).opcodes ∧
        (s.host.world.statsOf c.machine).chars = s.host.charCount := by
      rcases hraises with ⟨task, rest, before, hleads, hfails⟩
      rcases ledger_of_reaches hc hleads with ⟨hagenda, _⟩ | hledger
      · cases hagenda
        cases hfails with
        | announce h => exact absurd trivial hx
      · exact hledger.fails hc hfails hx
    have herror := error_of_raises hraises
    rcases Ledger.reports hc (reports_of_raises hraises) with ⟨hlog, hfigures, hchars⟩
    rw [hlog, hfigures]
    exact ⟨hcounted.1, hcounted.2.trans hchars.symm, fun h => absurd h herror,
      fun h => absurd h herror⟩

end Program

end Stencil
