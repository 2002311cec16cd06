import Mathlib.Data.List.Perm.Subperm
import Mathlib.Logic.Relation
import Stencil.Proofs.Agenda

/-!
# Calls that do not recur

Where no macro calls itself, directly or by way of others, the macros whose calls
are open at some time are distinct.  There are no more of them than the table
holds, and the depth that a program starts with is never used up.
-/

namespace Stencil

namespace MacroTable

variable (macros : MacroTable)

/-- The instructions call a macro of the table. -/
def Mentions (is : List Instruction) (m : Macro) : Prop :=
  ∃ name block span, Instruction.of (.beginMacroCall name block) span ∈ is ∧
    macros.get? block name = some m

def Calls (m m' : Macro) : Prop :=
  macros.Mentions m.pattern m' ∨ macros.Mentions m.body m'

def Acyclic : Prop :=
  ∀ m, ¬Relation.TransGen macros.Calls m m

/-- The open calls, innermost first, while the instructions are executed: each
leads to whatever these call. -/
structure Path (path : List Macro) (is : List Instruction) : Prop where
  nodup : path.Nodup
  known : path ⊆ macros.entries
  leads : ∀ m ∈ path, ∀ m', macros.Mentions is m' → Relation.TransGen macros.Calls m m'

/-- There is room for as many calls as can still be nested. -/
def Room (depth : Nat) (is : List Instruction) : Prop :=
  ∃ path, macros.Path path is ∧ macros.size < path.length + depth

variable {macros} {depth : Nat} {is is' : List Instruction} {m : Macro}

theorem mem_entries_of_get? {block : Nat} {name : String}
    (h : macros.get? block name = some m) : m ∈ macros.entries :=
  List.mem_of_find?_eq_some h

theorem mentions_of_subset (hsubset : is' ⊆ is) (h : macros.Mentions is' m) :
    macros.Mentions is m := by
  rcases h with ⟨name, block, span, hmem, hfound⟩
  exact ⟨name, block, span, hsubset hmem, hfound⟩

theorem path_of_call (hacyclic : macros.Acyclic) {path : List Macro}
    (hpath : macros.Path path is) (hm : macros.Mentions is m)
    (hcalls : ∀ m', macros.Mentions is' m' → macros.Calls m m') :
    macros.Path (m :: path) is' where
  nodup := by
    apply List.nodup_cons.mpr
    constructor
    · intro hmem
      exact hacyclic m (hpath.leads m hmem m hm)
    · exact hpath.nodup
  known := by
    rcases hm with ⟨name, block, span, _, hfound⟩
    exact List.cons_subset.mpr ⟨mem_entries_of_get? hfound, hpath.known⟩
  leads := by
    intro caller hmem m' hm'
    have hcall : macros.Calls m m' := hcalls m' hm'
    rcases List.mem_cons.mp hmem with rfl | hmem
    · exact .single hcall
    · exact (hpath.leads caller hmem m hm).tail hcall

theorem room_callDepth (macros : MacroTable) (is : List Instruction) :
    macros.Room (Exec.callDepth macros) is := by
  refine ⟨[], ⟨List.nodup_nil, List.nil_subset _, fun m hm => absurd hm List.not_mem_nil⟩, ?_⟩
  rw [Exec.callDepth]
  simp

theorem room_of_subset (hsubset : is' ⊆ is) (h : macros.Room depth is) :
    macros.Room depth is' := by
  rcases h with ⟨path, hpath, hsize⟩
  refine ⟨path, ⟨hpath.nodup, hpath.known, ?_⟩, hsize⟩
  intro m hm m' hm'
  exact hpath.leads m hm m' (mentions_of_subset hsubset hm')

theorem not_room_zero : ¬macros.Room 0 is := by
  rintro ⟨path, hpath, hsize⟩
  have hlength : path.length ≤ macros.entries.length :=
    (hpath.nodup.subperm hpath.known).length_le
  rw [size] at hsize
  omega

theorem room_of_call (hacyclic : macros.Acyclic) (h : macros.Room (depth + 1) is)
    (hm : macros.Mentions is m) :
    macros.Room depth m.pattern ∧ macros.Room depth m.body := by
  rcases h with ⟨path, hpath, hsize⟩
  have hroom : macros.size < (m :: path).length + depth := by
    rw [List.length_cons]
    omega
  constructor
  · exact ⟨m :: path, path_of_call hacyclic hpath hm fun _ => .inl, hroom⟩
  · exact ⟨m :: path, path_of_call hacyclic hpath hm fun _ => .inr, hroom⟩

end MacroTable

variable {σ : Type} {c : Setting σ} {macros : MacroTable} {s s' : State σ}

namespace Task

/-- The calls in a task have room. -/
def Room (macros : MacroTable) : Task → Prop
  | perform depth span action => macros.Room depth [.of action span]
  | loop depth _ _ body => macros.Room depth body.toInstructions
  | items depth _ _ body _ _ => macros.Room depth body.toInstructions
  | code depth matched => macros.Room depth matched.toInstructions
  | fragment depth is => macros.Room depth is
  | enter depth _ m => macros.Room depth m.body
  | invoke depth _ m _ => macros.Room depth m.body
  | _ => True

theorem room_of_steps (hacyclic : macros.Acyclic) {task : Task} {tasks : List Task}
    (hroom : task.Room macros) (h : Steps c macros task s tasks s') :
    ∀ next ∈ tasks, next.Room macros := by
  cases h with
  -- only a call lowers the depth, and it makes the path longer by as much
  | @call depth span name block m s hfound =>
      have hmentions : macros.Mentions [.of (.beginMacroCall name block) span] m :=
        ⟨name, block, span, List.mem_singleton_self _, hfound⟩
      rcases MacroTable.room_of_call hacyclic hroom hmentions with ⟨hpattern, hbody⟩
      simp [Room, hpattern, hbody]
  | step depth action span rest s =>
      have haction : macros.Room depth [.of action span] :=
        MacroTable.room_of_subset (by simp [Code.toInstructions]) hroom
      have hrest : macros.Room depth rest.toInstructions :=
        MacroTable.room_of_subset (by simp [Code.toInstructions]) hroom
      simp [Room, haction, hrest]
  | iteration depth opening closing array body rest s =>
      have hbody : macros.Room depth body.toInstructions :=
        MacroTable.room_of_subset (by simp [Code.toInstructions]) hroom
      have hrest : macros.Room depth rest.toInstructions := by
        apply MacroTable.room_of_subset _ hroom
        intro i hi
        simp [Code.toInstructions, hi]
      simp [Room, hbody, hrest]
  | fragment depth s hmatched =>
      have hcode := Code.toInstructions_of_ofInstructions hmatched
      simp only [List.mem_singleton, forall_eq, Room, hcode]
      exact hroom
  | loop depth opening body s hfound =>
      have hbody : macros.Room depth body.toInstructions := hroom
      simp [Room, hbody]
  | item depth array span body index item rest s =>
      have hbody : macros.Room depth body.toInstructions := hroom
      simp [Room, hbody]
  | enter depth span m hcaptures =>
      have hbody : macros.Room depth m.body := hroom
      simp [Room, hbody]
  | invoke depth span m text s =>
      have hbody : macros.Room depth m.body := hroom
      simp [Room, hbody]
  | _ => simp [Room]

/-- A call finds no room left only where there was none. -/
theorem ne_tooDeep_of_fails {task : Task} {x : Failure} (hroom : task.Room macros)
    (h : Fails c macros task s x s') : x ≠ .breakdown .callsTooDeep := by
  rintro rfl
  cases h with
  | tooDeep span name block s => exact MacroTable.not_room_zero hroom

end Task

namespace Agenda

theorem room_of_leads (hacyclic : macros.Acyclic) {tasks tasks' : List Task}
    (h : Leads c macros tasks s tasks' s') (hroom : ∀ task ∈ tasks, task.Room macros) :
    ∀ task ∈ tasks', task.Room macros := by
  induction h with
  | refl tasks s => exact hroom
  | step hstep _ ih =>
      apply ih
      intro task htask
      rcases List.mem_append.mp htask with hnew | hrest
      · exact Task.room_of_steps hacyclic (hroom _ List.mem_cons_self) hstep task hnew
      · exact hroom task (List.mem_cons_of_mem _ hrest)

end Agenda

namespace Program

theorem ne_tooDeep_of_raises {p : Program} (hacyclic : p.macros.Acyclic) {world : σ}
    {x : Failure} (h : p.Raises c world x s) : x ≠ .breakdown .callsTooDeep := by
  rcases h with ⟨task, rest, before, hleads, hfails⟩
  have hagenda : ∀ task ∈ p.agenda, task.Room p.macros := by
    simp [agenda, Task.Room, MacroTable.room_callDepth]
  have hroom := Agenda.room_of_leads hacyclic hleads hagenda task List.mem_cons_self
  exact Task.ne_tooDeep_of_fails hroom hfails

end Program

end Stencil
