import Mathlib.Data.List.Nodup
import Stencil.Proofs.Visibility
import Stencil.Rendering

/-!
# The order in which names are given

Two environments with the same variables and arrays may have been given their names in
different orders.  A run looks names up and does nothing else with its environment, so it
takes the same course with both.  A dump sorts the names, and names that all differ can be
sorted in one way only.
-/

namespace Stencil

/-! ## Sorted entries -/

namespace Entries

variable {α : Type} {entries others : List (String × α)}

/-- Every name is less than those after it, by code points. -/
def Increasing (entries : List (String × α)) : Prop :=
  entries.Pairwise fun first second => first.1 < second.1

instance : Decidable (Increasing entries) :=
  inferInstanceAs (Decidable (List.Pairwise _ _))

theorem byName_perm (entries : List (String × α)) : (byName entries).Perm entries :=
  List.mergeSort_perm _ _

theorem byName_increasing (h : (entries.map Prod.fst).Nodup) : Increasing (byName entries) := by
  have hle (first second : String) : (!decide (second < first)) = true ↔ first ≤ second := by
    rw [Bool.not_eq_true', decide_eq_false_iff_not, String.not_lt]
  have hsorted := @List.pairwise_mergeSort _
    (fun first second : String × α => !decide (second.1 < first.1))
    (fun _ _ _ hfirst hsecond =>
      (hle _ _).mpr (String.le_trans ((hle _ _).mp hfirst) ((hle _ _).mp hsecond)))
    (fun first second => by
      rw [Bool.or_eq_true, hle, hle]
      exact String.le_total _ _)
    entries
  have hordered : (byName entries).Pairwise fun first second => first.1 ≤ second.1 :=
    hsorted.imp (hle _ _).mp
  -- sorting says only that no name decreases; that no two are equal comes from the keys
  have hdistinct : (byName entries).Pairwise fun first second => first.1 ≠ second.1 :=
    List.pairwise_map.mp (((byName_perm entries).map Prod.fst).nodup_iff.mpr h)
  exact (hordered.and hdistinct).imp fun ⟨hle, hne⟩ =>
    String.not_le.mp fun hge => hne (String.le_antisymm hle hge)

/-- There is one way to sort names that all differ. -/
theorem Increasing.eq_of_perm (h : Increasing entries) (h' : Increasing others)
    (hperm : entries.Perm others) : entries = others :=
  List.Perm.eq_of_pairwise
    (fun _ _ _ _ hlt hgt => absurd (String.lt_trans hlt hgt) (String.lt_irrefl _)) h h' hperm

theorem byName_eq_of_increasing (h : (entries.map Prod.fst).Nodup) (hothers : Increasing others)
    (hperm : entries.Perm others) : byName entries = others :=
  (byName_increasing h).eq_of_perm hothers ((byName_perm entries).trans hperm)

theorem byName_eq_of_perm (h : (entries.map Prod.fst).Nodup) (hperm : entries.Perm others) :
    byName entries = byName others :=
  byName_eq_of_increasing h (byName_increasing ((hperm.map Prod.fst).nodup_iff.mp h))
    (hperm.trans (byName_perm others).symm)

/-- Where every key has one value, the entries are told by what is found under the keys. -/
theorem perm_of_lookup (h : (entries.map Prod.fst).Nodup) (h' : (others.map Prod.fst).Nodup)
    (hsame : ∀ name, entries.lookup name = others.lookup name) : entries.Perm others := by
  refine (List.perm_ext_iff_of_nodup (List.Nodup.of_map _ h) (List.Nodup.of_map _ h')).mpr ?_
  rintro ⟨name, value⟩
  rw [← lookup_eq_some_iff_mem h, ← lookup_eq_some_iff_mem h', hsame]

theorem lookup_of_perm (h : (entries.map Prod.fst).Nodup) (hperm : entries.Perm others)
    (name : String) : entries.lookup name = others.lookup name := by
  have h' := (hperm.map Prod.fst).nodup_iff.mp h
  apply Option.ext
  intro value
  rw [lookup_eq_some_iff_mem h, lookup_eq_some_iff_mem h']
  exact hperm.mem_iff

end Entries

/-! ## Environments -/

namespace Environment

variable {env first second : Environment}

/-- Every name is given once. -/
structure Distinct (env : Environment) : Prop where
  scalars : (env.scalars.map Prod.fst).Nodup
  arrays : (env.arrays.map Prod.fst).Nodup

/-- The same variables and the same arrays, in whatever order they were given. -/
structure Agrees (first second : Environment) : Prop where
  scalars : ∀ name, first.findVariable name = second.findVariable name
  arrays : ∀ name, first.findArray name = second.findArray name

theorem Distinct.agrees_of_perm (h : first.Distinct) (hscalars : first.scalars.Perm second.scalars)
    (harrays : first.arrays.Perm second.arrays) : first.Agrees second :=
  ⟨Entries.lookup_of_perm h.scalars hscalars, Entries.lookup_of_perm h.arrays harrays⟩

/-- The lines that show variables and arrays in the order in which they stand. -/
def lines (env : Environment) : List String :=
  ("variables (" ++ toString env.scalars.length ++ "):") ::
    env.scalars.map (fun (name, value) => "  " ++ name ++ " = " ++ Json.quote value) ++
    ("arrays (" ++ toString env.arrays.length ++ "):") ::
    env.arrays.map fun (name, items) => "  " ++ name ++ " = " ++ Json.quoteList items

def sorted (env : Environment) : Environment :=
  ⟨Entries.byName env.scalars, Entries.byName env.arrays⟩

theorem dumpLines_eq (env : Environment) : env.dumpLines = env.sorted.lines := by
  rw [dumpLines, lines, sorted, (Entries.byName_perm env.scalars).length_eq,
    (Entries.byName_perm env.arrays).length_eq]

theorem sorted_eq (hfirst : first.Distinct) (hsecond : second.Distinct)
    (h : first.Agrees second) : first.sorted = second.sorted := by
  have hscalars := Entries.perm_of_lookup hfirst.scalars hsecond.scalars h.scalars
  have harrays := Entries.perm_of_lookup hfirst.arrays hsecond.arrays h.arrays
  rw [sorted, sorted, Entries.byName_eq_of_perm hfirst.scalars hscalars,
    Entries.byName_eq_of_perm hfirst.arrays harrays]

theorem dump_eq (hfirst : first.Distinct) (hsecond : second.Distinct)
    (h : first.Agrees second) : first.dump = second.dump := by
  rw [dump, dump, dumpLines_eq, dumpLines_eq, sorted_eq hfirst hsecond h]

end Environment

/-! ## Runs -/

namespace Exec

variable {σ : Type} (c : Setting σ) {first second : Environment} (h : first.Agrees second)
include h

theorem lookup_agrees (name : String) (span : Option Span) :
    lookup { c with environment := first } name span =
      lookup { c with environment := second } name span := by
  simp only [lookup, h.scalars]

theorem perform_agrees (call : Option Span → String → Nat → Exec σ Unit) (span : Option Span)
    (action : Action) :
    perform { c with environment := first } call span action =
      perform { c with environment := second } call span action := by
  cases action with
  | emitVar name =>
      simp only [perform, lookup_agrees c h name span]
      rfl
  | _ => rfl

theorem runCode_agrees (call : Option Span → String → Nat → Exec σ Unit) (code : Code) :
    runCode { c with environment := first } call code =
      runCode { c with environment := second } call code := by
  induction code with
  | done => rfl
  | step action span rest ih =>
      simp only [runCode, perform_agrees c h call span action, ih]
      rfl
  | loop opening array body closing rest ihBody ihRest =>
      simp only [runCode, h.arrays, ihBody, ihRest]
      rfl

theorem runFragment_agrees (call : Option Span → String → Nat → Exec σ Unit)
    (instructions : List Instruction) :
    runFragment { c with environment := first } call instructions =
      runFragment { c with environment := second } call instructions := by
  simp only [runFragment, runCode_agrees c h call]

theorem callMacro_agrees (macros : MacroTable) (depth : Nat) :
    callMacro { c with environment := first } macros depth =
      callMacro { c with environment := second } macros depth := by
  induction depth with
  | zero => rfl
  | succ depth ih =>
      funext span name block
      simp only [callMacro, ih, runFragment_agrees c h]
      rfl

theorem program_agrees (p : Program) :
    program { c with environment := first } p = program { c with environment := second } p := by
  simp only [program, callMacro_agrees c h, runFragment_agrees c h]
  rfl

end Exec

/-! ## Renderings -/

section Renderings

variable {σ : Type}

/-- A setting with an environment, in which hooks may look names up. -/
def Setting.given (c : Setting σ)
    (hooks : (String → Option String) → (String → Option (List String)) → Registry σ)
    (env : Environment) : Setting σ :=
  { c with
    environment := env
    registry := hooks env.findVariable env.findArray }

/-- How a rendering ended: with an error of the source, or with the end of a run, which holds
its error, what it wrote, the calls of its hooks, its log and its frames. -/
def Rendering.ended : Rendering σ → Except CompileError (Program × Outcome σ)
  | rejected e => .error e
  | ran _ program outcome => .ok (program, outcome)

variable (c : Setting σ)
  (hooks : (String → Option String) → (String → Option (List String)) → Registry σ)
  {first second : Environment}

theorem Program.run_agrees (h : first.Agrees second) (p : Program) (world : σ) :
    p.run (c.given hooks first) world = p.run (c.given hooks second) world := by
  have hregistry : hooks second.findVariable second.findArray =
      hooks first.findVariable first.findArray := by
    rw [funext h.scalars, funext h.arrays]
  have hprogram := Exec.program_agrees
    { c with registry := hooks first.findVariable first.findArray } h p
  simp only [Program.run, Setting.given, hregistry, hprogram]
  rfl

/-- A rendering, with the one environment and with the other. -/
theorem render_agrees (h : first.Agrees second) (source : String) (world : σ) :
    (∃ e, render (c.given hooks first) source world = .rejected e ∧
        render (c.given hooks second) source world = .rejected e) ∨
      ∃ p outcome, render (c.given hooks first) source world = .ran first p outcome ∧
        render (c.given hooks second) source world = .ran second p outcome := by
  rw [render, render]
  cases Program.compile source with
  | error e => exact .inl ⟨e, rfl, rfl⟩
  | ok p =>
      refine .inr ⟨p, p.run (c.given hooks first) world, rfl, ?_⟩
      rw [Program.run_agrees c hooks h]
      rfl

/-- The order in which the names of an environment are given does not show.  With the same
variables and arrays a rendering ends the same way, hooks included, and has the same texts.
A dump shows each variable and each array once, in the order of their names. -/
theorem render_ignores_name_order (hfirst : first.Distinct) (hsecond : second.Distinct)
    (h : first.Agrees second) (source : String) (world : σ) :
    let rendered (env : Environment) := render (c.given hooks env) source world
    ((rendered first).output = (rendered second).output ∧
      (rendered first).ended = (rendered second).ended ∧
      (∀ label, (rendered first).diagnosticText label source =
          (rendered second).diagnosticText label source ∧
        (rendered first).tracebackJson? label = (rendered second).tracebackJson? label ∧
        ∀ verbose, (rendered first).traceback? label source verbose =
          (rendered second).traceback? label source verbose) ∧
      (rendered first).console = (rendered second).console) ∧
    first.dump = second.dump ∧
    ∃ listed : Environment,
      listed.scalars.Perm first.scalars ∧ Entries.Increasing listed.scalars ∧
      listed.arrays.Perm first.arrays ∧ Entries.Increasing listed.arrays ∧
      first.dump = String.join (listed.lines.map (· ++ "\n")) := by
  intro rendered
  have hdump := Environment.dump_eq hfirst hsecond h
  refine ⟨?_, hdump, first.sorted, Entries.byName_perm _, Entries.byName_increasing hfirst.scalars,
    Entries.byName_perm _, Entries.byName_increasing hfirst.arrays, ?_⟩
  · rcases render_agrees c hooks h source world with ⟨e, he, he'⟩ | ⟨p, outcome, hran, hran'⟩
    · simp only [rendered, he, he', and_self, implies_true]
    · simp only [rendered, hran, hran', Rendering.output, Rendering.ended,
        Rendering.diagnosticText, Rendering.diagnostic?, Rendering.tracebackJson?,
        Rendering.traceback?, Rendering.console, hdump, and_self, implies_true]
  · rw [Environment.dump, Environment.dumpLines_eq]

/-- A filter that looks a name up, and a name that is missing. -/
theorem render_ignores_name_order_reversed :
    let first : Environment :=
      ⟨[("b", "1"), ("a", "2"), ("Z", "3")], [("m", []), ("l", ["x", "y"])]⟩
    let second : Environment := ⟨first.scalars.reverse, first.arrays.reverse⟩
    let hooks (scalar : String → Option String) (_ : String → Option (List String)) :
        Registry Unit :=
      let append (text : String) := Filtered.text (text ++ (scalar "b").getD "")
      { Registry.empty with
        filters := [⟨0, { owner := "e" }, fun _ text => pure (append text)⟩] }
    let c : Setting Unit := ⟨"", .empty, .empty, Sink.accepting, true⟩
    let source := "\x7b\x7b a; l[:]; c \x7d\x7d"
    (first.Distinct ∧ second.Distinct ∧ first.Agrees second) ∧
      (render (c.given hooks first) source ()).output = "21x1y1" ∧
      (render (c.given hooks second) source ()).output = "21x1y1" ∧
      (render (c.given hooks first) source ()).ended =
        (render (c.given hooks second) source ()).ended ∧
      second.dump = "variables (3):\n  Z = \"3\"\n  a = \"2\"\n  b = \"1\"\n" ++
        "arrays (2):\n  l = [\"x\", \"y\"]\n  m = []\n" := by
  intro first second hooks c source
  have hfirst : first.Distinct := ⟨by decide, by decide⟩
  have hsecond : second.Distinct := ⟨by decide, by decide⟩
  have h : first.Agrees second := hfirst.agrees_of_perm (by decide) (by decide)
  have houtput : (render (c.given hooks first) source ()).output = "21x1y1" := by decide +kernel
  rcases render_ignores_name_order c hooks hfirst hsecond h source () with
    ⟨⟨hsame, hended, _⟩, hdump, _⟩
  have hscalars : Entries.byName first.scalars = second.scalars :=
    Entries.byName_eq_of_increasing hfirst.scalars (by decide) (by decide)
  have harrays : Entries.byName first.arrays = second.arrays :=
    Entries.byName_eq_of_increasing hfirst.arrays (by decide) (by decide)
  refine ⟨⟨hfirst, hsecond, h⟩, houtput, hsame ▸ houtput, hended, hdump ▸ ?_⟩
  rw [Environment.dump, Environment.dumpLines_eq, Environment.sorted, hscalars, harrays]
  decide +kernel

/-- A filter that goes through the names of its machine shows their order. -/
theorem render_shows_name_order :
    let first : Environment := ⟨[("a", "1"), ("b", "2")], []⟩
    let second : Environment := ⟨[("b", "2"), ("a", "1")], []⟩
    let listing (env : Environment) : Registry Unit :=
      let append (text : String) :=
        Filtered.text (text ++ ",".intercalate (env.scalars.map Prod.fst))
      { Registry.empty with
        filters := [⟨0, { owner := "e" }, fun _ text => pure (append text)⟩] }
    let setting (env : Environment) : Setting Unit :=
      ⟨"", env, listing env, Sink.accepting, false⟩
    (first.Distinct ∧ second.Distinct ∧ first.Agrees second) ∧
      (render (setting first) "x" ()).output = "xa,b" ∧
      (render (setting second) "x" ()).output = "xb,a" := by
  intro first second listing setting
  have hfirst : first.Distinct := ⟨by decide, by decide⟩
  have hsecond : second.Distinct := ⟨by decide, by decide⟩
  have h : first.Agrees second := hfirst.agrees_of_perm (by decide) (by decide)
  refine ⟨⟨hfirst, hsecond, h⟩, ?_, ?_⟩
  · decide +kernel
  · decide +kernel

end Renderings

end Stencil
