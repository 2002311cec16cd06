import Mathlib.Data.List.TakeWhile
import Stencil.Proofs.Inputs
import Stencil.Proofs.Ledger
import Stencil.Proofs.NameOrder
import Stencil.Proofs.Showing

/-!
# What the command answers

The values of the options say which environment the template is rendered with: of the
assignments to one name the last counts, and arrays from files go before others.  If all that
the command takes in loads, it shows the rendering; if something is at fault, it tells of the
first that is, and shows nothing else.
-/

namespace Stencil
namespace CommandLine

/-! ## Assignments -/

/-- The argument is a name, an equals sign and a value.  The name is not empty and ends at the
first equals sign. -/
structure Assigns (raw name value : String) : Prop where
  text : raw.toList = name.toList ++ '=' :: value.toList
  named : name.toList ≠ []
  first : '=' ∉ name.toList

/-- Of the values that assign to the name, the last assigns it the value. -/
def LastAssigns (values : List (Option String)) (name value : String) : Prop :=
  ∃ before raw after, values = before ++ some raw :: after ∧ Assigns raw name value ∧
    ∀ later other, some later ∈ after → ¬Assigns later name other

section Assignments

variable {flag raw name value : String} {values : List (Option String)}

theorem splitAssignment_eq_ok :
    splitAssignment flag raw = .ok (name, value) ↔ Assigns raw name value := by
  constructor
  · intro h
    have hparts := List.takeWhile_append_dropWhile (p := (· != '=')) (l := raw.toList)
    have hrest := congrArg (List.drop (raw.toList.takeWhile (· != '=')).length) hparts
    have hhead := List.head?_dropWhile_not (· != '=') raw.toList
    have hname : '=' ∉ raw.toList.takeWhile (· != '=') := fun hmem => by
      simpa using List.mem_takeWhile_imp hmem
    rw [List.drop_left] at hrest
    rw [splitAssignment, ← hrest] at h
    generalize raw.toList.takeWhile (· != '=') = before, raw.toList.dropWhile (· != '=') = after
      at h hparts hhead hname
    split at h
    · cases h
      refine ⟨?_, ?_, ?_⟩
      · rw [← hparts, String.toList_ofList, String.toList_ofList]
        simp only [List.head?_cons, bne_eq_false_iff_eq] at hhead
        rw [hhead]
      · rw [String.toList_ofList]
        exact List.cons_ne_nil _ _
      · rwa [String.toList_ofList]
    · cases h
  · rintro ⟨htext, hnamed, hfirst⟩
    have hpass : ∀ c ∈ name.toList, (c != '=') = true := fun c hc =>
      bne_iff_ne.mpr (ne_of_mem_of_not_mem hc hfirst)
    have htake : raw.toList.takeWhile (· != '=') = name.toList := by
      rw [htext, List.takeWhile_append_of_pos hpass, List.takeWhile_cons_of_neg (by decide),
        List.append_nil]
    have hdrop : raw.toList.drop name.toList.length = '=' :: value.toList := by
      rw [htext, List.drop_left]
    rw [splitAssignment, htake, hdrop]
    cases hchars : name.toList with
    | nil => exact absurd hchars hnamed
    | cons c cs =>
        dsimp only
        rw [← hchars, String.ofList_toList, String.ofList_toList]

theorem Assigns.unique {name' value' : String} (h : Assigns raw name value)
    (h' : Assigns raw name' value') : name' = name ∧ value' = value := by
  have hsplit : splitAssignment "" raw = .ok (name, value) := splitAssignment_eq_ok.mpr h
  rw [splitAssignment_eq_ok.mpr h'] at hsplit
  cases hsplit
  exact ⟨rfl, rfl⟩

theorem not_lastAssigns_nil : ¬LastAssigns [] name value := by
  rintro ⟨before, raw, after, h, _⟩
  exact List.append_ne_nil_of_right_ne_nil before (List.cons_ne_nil _ after) h.symm

theorem LastAssigns.cons (h : LastAssigns values name value) (first : Option String) :
    LastAssigns (first :: values) name value := by
  rcases h with ⟨before, raw, after, rfl, hlast⟩
  exact ⟨first :: before, raw, after, rfl, hlast⟩

/-- If anything assigns to a name, something does last. -/
theorem exists_lastAssigns (hmem : some raw ∈ values) (h : Assigns raw name value) :
    ∃ last, LastAssigns values name last := by
  induction values generalizing raw value with
  | nil => cases hmem
  | cons first values ih =>
      by_cases hlater : ∃ later other, some later ∈ values ∧ Assigns later name other
      · rcases hlater with ⟨later, other, hmem', hassigns⟩
        rcases ih hmem' hassigns with ⟨last, hlast⟩
        exact ⟨last, hlast.cons first⟩
      · rcases List.mem_cons.mp hmem with rfl | hmem'
        · refine ⟨value, [], raw, values, rfl, h, ?_⟩
          exact fun later other hmem' hassigns => hlater ⟨later, other, hmem', hassigns⟩
        · exact absurd ⟨raw, value, hmem', h⟩ hlater

theorem lastAssigns_cons : LastAssigns (some raw :: values) name value ↔
    LastAssigns values name value ∨
      (∀ other, ¬LastAssigns values name other) ∧ Assigns raw name value := by
  constructor
  · rintro ⟨before, last, after, hsplit, hassigns, hlast⟩
    cases before with
    | nil =>
        cases hsplit
        right
        refine ⟨?_, hassigns⟩
        rintro other ⟨front, later, back, rfl, hlater, _⟩
        exact hlast later other (List.mem_append_right _ List.mem_cons_self) hlater
    | cons first before =>
        cases hsplit
        exact .inl ⟨before, last, after, rfl, hassigns, hlast⟩
  · rintro (h | ⟨hnone, hassigns⟩)
    · exact h.cons _
    · refine ⟨[], raw, values, rfl, hassigns, ?_⟩
      intro later other hmem hlater
      rcases exists_lastAssigns hmem hlater with ⟨last, hlast⟩
      exact hnone last hlast

variable {α : Type} {read : String → Except EnvironmentFault α} {entries : List (String × α)}
  {result : List (String × α)}

/-- After the assignments of one option a name has what is read of the last value assigned to
it, and what it had before if none is. -/
theorem lookup_collect (h : collect flag read entries values = .ok result) (name : String)
    (a : α) : result.lookup name = some a ↔
      (∃ value, LastAssigns values name value ∧ read value = .ok a) ∨
        (∀ value, ¬LastAssigns values name value) ∧ entries.lookup name = some a := by
  induction values generalizing entries with
  | nil =>
      cases h
      simp only [not_lastAssigns_nil, false_and, exists_false, not_false_eq_true, implies_true,
        true_and, false_or]
  | cons first values ih =>
      cases first with
      | none => cases h
      | some raw =>
          rw [collect] at h
          rcases ok_of_bind h with ⟨⟨key, given⟩, hsplit, hrest⟩
          rcases ok_of_bind hrest with ⟨b, hread, hcollect⟩
          have hassigns := splitAssignment_eq_ok.mp hsplit
          rw [ih hcollect, Entries.lookup_set]
          -- what this argument assigns counts only if nothing later assigns to the name
          by_cases hlater : ∃ value, LastAssigns values name value
          · have hsome : ¬∀ value, ¬LastAssigns values name value := not_forall_not.mpr hlater
            have hcons (value : String) : LastAssigns (some raw :: values) name value ↔
                LastAssigns values name value :=
              lastAssigns_cons.trans (or_iff_left fun h => hsome h.1)
            simp only [hcons, hsome, false_and, or_false]
          · have hnone : ∀ value, ¬LastAssigns values name value := not_exists.mp hlater
            have hcons (value : String) : LastAssigns (some raw :: values) name value ↔
                name = key ∧ value = given := by
              rw [lastAssigns_cons, or_iff_right (hnone value), and_iff_right hnone]
              constructor
              · exact fun h => hassigns.unique h
              · rintro ⟨rfl, rfl⟩
                exact hassigns
            simp only [hcons, hnone, false_and, exists_false, false_or, not_false_eq_true,
              implies_true, true_and]
            by_cases hname : name = key
            · simp [hname, hread]
            · simp [hname]

theorem nodup_collect (h : collect flag read entries values = .ok result)
    (hentries : (entries.map Prod.fst).Nodup) : (result.map Prod.fst).Nodup := by
  induction values generalizing entries with
  | nil =>
      cases h
      exact hentries
  | cons first values ih =>
      cases first with
      | none => cases h
      | some raw =>
          rw [collect] at h
          rcases ok_of_bind h with ⟨⟨key, given⟩, _, hrest⟩
          rcases ok_of_bind hrest with ⟨b, _, hcollect⟩
          exact ih hcollect (Entries.nodup_set hentries)

end Assignments

/-! ## Environments -/

namespace Arguments

variable {fs : FileSystem} {a : Arguments} {env other : Environment}

/-- An array of the arguments: the lines of the file that is named last, or if none is named
the lines of the value that is given last, in which a backslash with an n ends a line. -/
inductive GivesArray (fs : FileSystem) (a : Arguments) (name : String) : List String → Prop where
  | file {path text : String} (hlast : LastAssigns (a.valuesOf .arrayFile) name path)
      (hread : fs.readText path = .ok text) : GivesArray fs a name (Text.splitItems text)
  | value {value : String} (hnone : ∀ path, ¬LastAssigns (a.valuesOf .arrayFile) name path)
      (hlast : LastAssigns (a.valuesOf .array) name value) :
      GivesArray fs a name
        (Text.splitItems (String.ofList (unescapeLineFeeds value.toList)))

/-- The environment has the variables and the arrays of the arguments, in whatever order. -/
structure Gives (fs : FileSystem) (a : Arguments) (env : Environment) : Prop where
  distinct : env.Distinct
  scalars : ∀ name value, env.findVariable name = some value ↔
    LastAssigns (a.valuesOf .variable) name value
  arrays : ∀ name items, env.findArray name = some items ↔ GivesArray fs a name items

theorem Gives.agrees (h : a.Gives fs env) (h' : a.Gives fs other) : env.Agrees other where
  scalars name := Option.ext fun value => (h.scalars name value).trans (h'.scalars name value).symm
  arrays name := Option.ext fun items => (h.arrays name items).trans (h'.arrays name items).symm

theorem readText_of_items {path : String} {items : List String}
    (h : ((fs.readText path).mapError EnvironmentFault.file).map Text.splitItems = .ok items) :
    ∃ text, fs.readText path = .ok text ∧ Text.splitItems text = items := by
  cases hread : fs.readText path with
  | error fault =>
      rw [hread] at h
      cases h
  | ok text =>
      rw [hread] at h
      cases h
      exact ⟨text, rfl, rfl⟩

theorem gives_of_environment (h : environment fs a = .ok env) : a.Gives fs env := by
  rcases ok_of_bind h with ⟨scalars, hscalars, hrest⟩
  rcases ok_of_bind hrest with ⟨given, hgiven, hrest⟩
  rcases ok_of_bind hrest with ⟨arrays, harrays, hend⟩
  cases hend
  refine ⟨⟨?_, ?_⟩, ?_, ?_⟩
  · exact nodup_collect hscalars List.nodup_nil
  · exact nodup_collect harrays (nodup_collect hgiven List.nodup_nil)
  · intro name value
    rw [Environment.findVariable, lookup_collect hscalars]
    simp
  · intro name items
    rw [Environment.findArray, lookup_collect harrays, lookup_collect hgiven]
    constructor
    · rintro (⟨path, hlast, hread⟩ | ⟨hnone, ⟨value, hlast, hvalue⟩ | ⟨_, hempty⟩⟩)
      · rcases readText_of_items hread with ⟨text, htext, rfl⟩
        exact .file hlast htext
      · cases hvalue
        exact .value hnone hlast
      · cases hempty
    · intro hgives
      cases hgives with
      | file hlast hread => exact .inl ⟨_, hlast, by rw [hread]; rfl⟩
      | value hnone hlast => exact .inr ⟨hnone, .inl ⟨_, hlast, rfl⟩⟩

/-! ## What loads -/

/-- The text of the template: the argument itself, or what the file of that name holds. -/
def Template (fs : FileSystem) (a : Arguments) (program source : String) : Prop :=
  if a.has .literalSource then source = program else fs.readText program = .ok source

def labelFor (a : Arguments) (program : String) : String :=
  label (if a.has .literalSource then defaultLabel else program) a

/-- What a template is rendered with. -/
def setting (a : Arguments) (env : Environment) (services : Services World) : Setting World where
  machine := ""
  environment := env
  registry := services.registry
  sink := Sink.accepting
  verbose := a.has .verbose

/-- Nothing that the command takes in is faulty, and the extensions load. -/
structure Loads (fs : FileSystem) (extensions : String → Extension) (a : Arguments)
    (program source : String) (services : Services World) : Prop where
  inputs : ∀ input ∈ a.inputs, input.fault? fs = none
  template : a.Template fs program source
  extensions : Extension.load fs extensions (givenPaths (a.valuesOf .extension)) = .ok services

/-- The message of the first input that is faulty, or else of the first extension that fails
to load, unless its native module is not made. -/
inductive Tells (fs : FileSystem) (extensions : String → Extension) (a : Arguments) :
    String → Prop where
  | input {before after : List Input} {input : Input} {message : String}
      (hinputs : a.inputs = before ++ input :: after)
      (hbefore : ∀ other ∈ before, other.fault? fs = none)
      (hfault : input.fault? fs = some (.told message)) : Tells fs extensions a message
  | extension {e : LoadError} (hinputs : ∀ input ∈ a.inputs, input.fault? fs = none)
      (hload : Extension.load fs extensions (givenPaths (a.valuesOf .extension)) = .error e)
      (hmade : ∀ message, e ≠ .notCreated message) :
      Tells fs extensions a ("ExtensionError: " ++ e.message)

variable {extensions : String → Extension} {program source : String}
  {services : Services World}

theorem template_of_source (h : a.Template fs program source) :
    CommandLine.template fs program a = .ok (source, a.labelFor program) := by
  rw [Template] at h
  rw [CommandLine.template, labelFor]
  split at h
  · rename_i hliteral
    rw [if_pos hliteral, if_pos hliteral, h]
  · rename_i hliteral
    rw [if_neg hliteral, if_neg hliteral, h]
    rfl

theorem exists_template {taken : String × String}
    (h : CommandLine.template fs program a = .ok taken) :
    ∃ source, a.Template fs program source := by
  simp only [Template]
  rw [CommandLine.template] at h
  split at h
  · rename_i hliteral
    exact ⟨program, by rw [if_pos hliteral]⟩
  · rename_i hliteral
    simp only [if_neg hliteral]
    cases hread : fs.readText program with
    | error fault =>
        rw [hread] at h
        cases h
    | ok text => exact ⟨text, rfl⟩

theorem ok_of_faultOf {ε α : Type} {f : ε → InputFault} {x : Except ε α}
    (h : InputFault.faultOf f x = none) : ∃ b, x = .ok b := by
  cases x with
  | error e => cases h
  | ok b => exact ⟨b, rfl⟩

theorem loadExtensions_of_faultless (extensions : String → Extension)
    {values : List (Option String)}
    (h : (Input.ofValues .extension values).findSome? (Input.fault? fs) = none) :
    loadExtensions fs extensions values =
      (Extension.load fs extensions (givenPaths values)).mapError .load := by
  rw [findSome?_extensions] at h
  cases hgather : Extension.gather fs (givenPaths values) with
  | error g =>
      rw [hgather] at h
      cases h
  | ok paths =>
      rw [hgather] at h
      dsimp only at h
      split at h
      · rename_i hall
        rw [loadExtensions, if_pos hall]
      · cases h

/-- If no input is faulty, the template and the environment are there. -/
theorem taken_of_faultless (hprogram : a.program = some program)
    (h : ∀ input ∈ a.inputs, input.fault? fs = none) :
    (∃ source, a.Template fs program source) ∧ (∃ env, environment fs a = .ok env) ∧
      (Input.ofValues .extension (a.valuesOf .extension)).findSome? (Input.fault? fs) = none := by
  rw [inputs, hprogram] at h
  have hnone := List.findSome?_eq_none_iff.mpr h
  rw [List.findSome?_append, List.findSome?_append, Option.or_eq_none_iff, Option.or_eq_none_iff,
    ← faultOf_template, ← faultOf_environment] at hnone
  rcases hnone with ⟨htemplate, henvironment, hextensions⟩
  rcases ok_of_faultOf htemplate with ⟨taken, htaken⟩
  exact ⟨exists_template htaken, ok_of_faultOf henvironment, hextensions⟩

end Arguments

/-! ## Files that hold text -/

namespace Input

variable {fs : FileSystem} {input : Input} {crash : Crash}

/-- The files that an input names. -/
inductive Names : Input → String → Prop where
  | template (name : String) : Names (template name) name
  | arrayFile {raw name path : String} (h : Assigns raw name path) : Names (arrayFile raw) path
  | list {path : String} (hlist : ListFile.isListFile path = true) : Names (extension path) path

/-- What the command does not provide for: a name with a null character, of a template or of a
list of extensions, and a dropped value. -/
inductive Unforeseen : Input → Crash → Prop where
  | template {name : String} (h : '\x00' ∈ name.toList) :
      Unforeseen (template name) (.unreadable .nullInName)
  | list {path : String} (hlist : ListFile.isListFile path = true) (h : '\x00' ∈ path.toList) :
      Unforeseen (extension path) (.unreadable .nullInName)
  | dropped : Unforeseen dropped .noValue

theorem readText_eq_nullInName (fs : FileSystem) {name : String} :
    fs.readText name = .error .nullInName ↔ '\x00' ∈ name.toList := by
  rw [FileSystem.readText, FileSystem.readBytes]
  split
  · rename_i hnull
    exact iff_of_true rfl (List.contains_iff_mem.mp hnull)
  · rename_i hnull
    refine iff_of_false ?_ fun hmem => hnull (List.contains_iff_mem.mpr hmem)
    cases fs.contents name with
    | error fault => nofun
    | ok bytes =>
        simp only [bind, Except.bind, Except.mapError]
        split
        · nofun
        · nofun

theorem noText_iff {name : String} {fault : ReadFault}
    (htext : ∀ e, fs.readText name ≠ .error (.encoding e)) :
    fs.readText name = .error fault ∧ fault.NoText ↔
      '\x00' ∈ name.toList ∧ fault = .nullInName := by
  rw [← readText_eq_nullInName fs]
  constructor
  · rintro ⟨hread, hfault⟩
    cases fault with
    | system e path => exact absurd rfl (hfault e path)
    | nullInName => exact ⟨hread, rfl⟩
    | encoding e => exact absurd hread (htext e)
  · rintro ⟨hread, rfl⟩
    exact ⟨hread, nofun⟩

theorem crashes_iff_unforeseen
    (htext : ∀ name, input.Names name → ∀ e, fs.readText name ≠ .error (.encoding e)) :
    input.Crashes fs crash ↔ input.Unforeseen crash := by
  constructor
  · intro h
    cases h with
    | @template name fault hread hfault =>
        rcases (noText_iff (htext name (.template name))).mp ⟨hread, hfault⟩ with ⟨hnull, rfl⟩
        exact .template hnull
    | @list path fault hlist hread hfault =>
        rcases (noText_iff (htext path (.list hlist))).mp ⟨hread, hfault⟩ with ⟨hnull, rfl⟩
        exact .list hlist hnull
    | dropped => exact .dropped
  · intro h
    cases h with
    | template hnull => exact .template ((readText_eq_nullInName fs).mpr hnull) nofun
    | list hlist hnull => exact .list hlist ((readText_eq_nullInName fs).mpr hnull) nofun
    | dropped => exact .dropped

end Input

/-! ## Answers -/

/-- How a rendering is presented.  The output goes to the standard output.  To the standard
error goes what the extensions print; then the listing, if it is asked for; then of a failure
the diagnostic; and then, if they are asked for, the tracebacks of a failed run. -/
inductive Presents (a : Arguments) (label source : String) : Rendering World → Answer → Prop where
  | succeeded {env : Environment} {program : Program} {o : Outcome World} (h : o.error = none) :
      Presents a label source (.ran env program o)
        (.finished 0 o.output (o.state.host.world.printed ++
          if a.has .console then env.dump ++ "\n" ++ program.listing else ""))
  | failed {env : Environment} {program : Program} {o : Outcome World} {error : RuntimeError}
      (h : o.error = some error) :
      Presents a label source (.ran env program o)
        (.finished 1 o.output (o.state.host.world.printed ++
          ((if a.has .console then env.dump ++ "\n" ++ program.listing else "") ++
            error.diagnostic.render label source ++
            (if a.has .verbose then o.state.traceback label source true error ++ "\n" else "") ++
            if a.has .tracebackJson then o.state.tracebackJson label error ++ "\n" else "")))
  | rejected {error : CompileError} :
      Presents a label source (.rejected error)
        (.finished 1 "" (error.diagnostic.render label source))

section Answers

variable {fs : FileSystem} {extensions : String → Extension} {a : Arguments}
  {program source message : String} {services : Services World} {env : Environment}
  {arguments : List String}

theorem presents_present (a : Arguments) (label source : String) (r : Rendering World) :
    Presents a label source r (present a label source r) := by
  rw [present, errorText, Rendering.diagnosticText]
  cases r with
  | rejected error =>
      simp only [Rendering.diagnostic?, Rendering.traceback?, Rendering.tracebackJson?,
        Rendering.console, printed, Option.map_none, Option.getD_none, ite_self,
        String.append_empty, String.empty_append]
      exact .rejected
  | ran env program o =>
      rw [Rendering.succeeded, Rendering.diagnostic?, Rendering.traceback?,
        Rendering.tracebackJson?]
      cases herror : o.error with
      | none =>
          simp only [Option.map_none, Option.getD_none, ite_self, String.append_empty]
          exact .succeeded herror
      | some error => exact .failed herror

/-- Environments that agree are not told apart. -/
theorem present_agrees {first second : Environment} (hfirst : first.Distinct)
    (hsecond : second.Distinct) (h : first.Agrees second) (label : String) :
    present a label source (render (a.setting first services) source {}) =
      present a label source (render (a.setting second services) source {}) := by
  have hrendered : (∃ e, render (a.setting first services) source {} = .rejected e ∧
        render (a.setting second services) source {} = .rejected e) ∨
      ∃ p o, render (a.setting first services) source {} = .ran first p o ∧
        render (a.setting second services) source {} = .ran second p o :=
    render_agrees (a.setting first services) (fun _ _ => services.registry) h source {}
  rcases hrendered with ⟨e, hrejected, hrejected'⟩ | ⟨p, o, hran, hran'⟩
  · rw [hrejected, hrejected']
  · have hconsole : (Rendering.ran first p o).console = (Rendering.ran second p o).console := by
      rw [Rendering.console, Rendering.console, Environment.dump_eq hfirst hsecond h]
    rw [hran, hran', present, present, errorText, errorText, hconsole]
    rfl

theorem execute_of_loads (hprogram : a.program = some program)
    (h : a.Loads fs extensions program source services) (hgives : a.Gives fs env) :
    Presents a (a.labelFor program) source (render (a.setting env services) source {})
      (execute fs extensions a) := by
  rcases Arguments.taken_of_faultless hprogram h.inputs with ⟨_, ⟨given, hgiven⟩, hextensions⟩
  have hload := Arguments.loadExtensions_of_faultless extensions hextensions
  rw [h.extensions] at hload
  have hsame := Arguments.gives_of_environment hgiven
  have hrender : renderWith fs extensions a source (a.labelFor program) =
      present a (a.labelFor program) source (render (a.setting given services) source {}) := by
    rw [renderWith, hgiven]
    simp only [hload]
    rfl
  rw [execute_of_template extensions _ _ hprogram (Arguments.template_of_source h.template),
    hrender, present_agrees hsame.distinct hgives.distinct (hsame.agrees hgives)]
  exact presents_present a _ source _

theorem execute_of_tells (hprogram : a.program = some program)
    (h : a.Tells fs extensions message) : execute fs extensions a = failure message := by
  have hanswers := execute_answers extensions fs a
  cases h with
  | input hinputs hbefore hfault =>
      have hfirst : a.firstFault fs = some (.told message) :=
        List.findSome?_eq_some_iff.mpr ⟨_, _, _, hinputs, hfault, hbefore⟩
      rw [hfirst] at hanswers
      exact hanswers
  | @extension e hinputs hload hmade =>
      rcases Arguments.taken_of_faultless hprogram hinputs with
        ⟨⟨source, htemplate⟩, ⟨env, henv⟩, hextensions⟩
      have hloaded := Arguments.loadExtensions_of_faultless extensions hextensions
      rw [hload] at hloaded
      rcases loadExtensions_of_gathered extensions hextensions with
        ⟨_, _, ⟨path, e', _, hfaulty, he'⟩ | ⟨⟨services, hservices⟩, _⟩⟩
      · cases he'.symm.trans hloaded
        rcases ofExtension_of_faulty hfaulty with ⟨message, hnot, _⟩ | ⟨_, htold⟩
        · exact absurd hnot (hmade message)
        · rw [execute_of_template extensions _ _ hprogram (Arguments.template_of_source htemplate),
            renderWith_of_extensions extensions henv hloaded, htold]
          rfl
      · cases hservices.symm.trans hloaded

/-- Every file that the command takes in, if it can be opened, holds text. -/
def Arguments.Textual (fs : FileSystem) (a : Arguments) : Prop :=
  ∀ input ∈ a.inputs, ∀ name, input.Names name → ∀ e, fs.readText name ≠ .error (.encoding e)

/-- A native module that is not made is that of the first extension that is faulty. -/
theorem unmade_of_load (hinputs : ∀ input ∈ a.inputs, input.fault? fs = none)
    (hload : Extension.load fs extensions (givenPaths (a.valuesOf .extension)) =
      .error (.notCreated message)) : a.Unmade fs extensions message := by
  have hloads := Extension.loads_load fs extensions (givenPaths (a.valuesOf .extension))
  rw [hload] at hloads
  cases hloads with
  | unread _ he => cases he
  | faulty hgather hfirst hfaulty => exact .first hinputs hgather hfirst hfaulty

/-- What does not load is told of, or is not provided for. -/
theorem tells_or_crashes (hprogram : a.program = some program)
    (h : ∀ source services env, a.Loads fs extensions program source services →
      ¬a.Gives fs env) :
    (∃ message, a.Tells fs extensions message) ∨
      ∃ crash, execute fs extensions a = .crashed crash := by
  cases hfirst : a.firstFault fs with
  | some fault =>
      cases fault with
      | told message =>
          rcases List.findSome?_eq_some_iff.mp hfirst with
            ⟨before, input, after, hinputs, hfault, hbefore⟩
          exact .inl ⟨message, .input hinputs hbefore hfault⟩
      | crash crash => exact .inr ⟨crash, (execute_eq_crashed extensions).mpr (.inl hfirst)⟩
  | none =>
      have hinputs := List.findSome?_eq_none_iff.mp hfirst
      rcases Arguments.taken_of_faultless hprogram hinputs with
        ⟨⟨source, htemplate⟩, ⟨env, henv⟩, _⟩
      cases hload : Extension.load fs extensions (givenPaths (a.valuesOf .extension)) with
      | error e =>
          by_cases hmade : ∀ message, e ≠ .notCreated message
          · exact .inl ⟨_, .extension hinputs hload hmade⟩
          · simp only [not_forall, not_not] at hmade
            rcases hmade with ⟨message, rfl⟩
            have hunmade := unmade_of_load hinputs hload
            exact .inr ⟨_, (execute_eq_crashed extensions).mpr (.inr ⟨message, rfl, hunmade⟩)⟩
      | ok services =>
          have hgives := Arguments.gives_of_environment henv
          exact absurd hgives (h source services env ⟨hinputs, htemplate, hload⟩)

/-- The command agrees with the engine.  If the template, the environment and the extensions
load, it presents the rendering of the template with the variables and arrays of its
arguments.  Otherwise it finishes with status one, no output, and the message of the first
input that does not load, in the order in which the command comes to them.  It crashes if and
only if that input is a template or a list of extensions with a null character in its name, or
a dropped value, or if the first extension that does not load has a native module that is not
made. -/
theorem run_agrees_with_render (hparse : Arguments.parse arguments = .ok a)
    (hprogram : a.program = some program) (htext : a.Textual fs) :
    (∀ source services env, a.Loads fs extensions program source services → a.Gives fs env →
      Presents a (a.labelFor program) source (render (a.setting env services) source {})
        (run fs extensions arguments)) ∧
    (∀ message, a.Tells fs extensions message →
      run fs extensions arguments = .finished 1 "" (message ++ "\n")) ∧
    (∀ crash, run fs extensions arguments = .crashed crash ↔
      (∃ before input after, a.inputs = before ++ input :: after ∧
        (∀ other ∈ before, other.fault? fs = none) ∧ input.Unforeseen crash) ∨
      ∃ message, crash = .native message ∧ a.Unmade fs extensions message) ∧
    ((∃ source services env, a.Loads fs extensions program source services ∧ a.Gives fs env) ∨
      (∃ message, a.Tells fs extensions message) ∨
      ∃ crash, run fs extensions arguments = .crashed crash) := by
  have hrun : run fs extensions arguments = execute fs extensions a := by
    rw [run, hparse]
  rw [hrun]
  refine ⟨?_, ?_, ?_, ?_⟩
  · intro source services env hloads hgives
    exact execute_of_loads hprogram hloads hgives
  · intro message htells
    exact execute_of_tells hprogram htells
  · intro crash
    rw [execute_eq_crashed, firstFault_eq_crash]
    refine or_congr_left ?_
    constructor
    · rintro ⟨before, input, after, hinputs, hbefore, hcrashes⟩
      have hmem : input ∈ a.inputs := by simp [hinputs]
      exact ⟨before, input, after, hinputs, hbefore,
        (Input.crashes_iff_unforeseen (htext input hmem)).mp hcrashes⟩
    · rintro ⟨before, input, after, hinputs, hbefore, hunforeseen⟩
      have hmem : input ∈ a.inputs := by simp [hinputs]
      exact ⟨before, input, after, hinputs, hbefore,
        (Input.crashes_iff_unforeseen (htext input hmem)).mpr hunforeseen⟩
  · by_cases hloads : ∃ source services env,
        a.Loads fs extensions program source services ∧ a.Gives fs env
    · exact .inl hloads
    · right
      apply tells_or_crashes hprogram
      intro source services env hload hgives
      exact hloads ⟨source, services, env, hload, hgives⟩

/-- One file, of two lines. -/
def twoLines : FileSystem where
  directory := "/"
  contents := fun name =>
    if name = "f" then .ok [0x70, 0x0d, 0x0a, 0x71, 0x0a] else .error .notFound

theorem textual_twoLines (a : Arguments) : a.Textual twoLines := by
  intro _ _ name _ e h
  have hdecode : Utf8.decode [0x70, 0x0d, 0x0a, 0x71, 0x0a] = .ok ['p', '\r', '\n', 'q', '\n'] := by
    decide +kernel
  rw [FileSystem.readText, FileSystem.readBytes, twoLines] at h
  split at h
  · cases h
  · dsimp only at h
    split at h
    · simp only [Except.mapError, bind, Except.bind, hdecode] at h
      cases h
    · cases h

/-- The last value of a variable, an array of which a file has the last word, and a variable
without a value. -/
theorem run_agrees_with_render_last :
    let source := "\x7b\x7b x; l[:]; y \x7d\x7d"
    let arguments := ["-source", source, "--var", "x=1", "--array-file", "l=f", "--var=x=2=3",
      "--array", "l=a\\nb"]
    let a : Arguments :=
      { program := some source, switches := [.literalSource],
        values := [(.variable, some "x=1"), (.arrayFile, some "l=f"), (.variable, some "x=2=3"),
          (.array, some "l=a\\nb")] }
    let env : Environment := ⟨[("x", "2=3")], [("l", ["p", "q"])]⟩
    (Arguments.parse arguments = .ok a ∧ a.Textual twoLines ∧
        a.Loads twoLines (fun _ => {}) source source Services.empty ∧ a.Gives twoLines env) ∧
      Presents a defaultLabel source (render (a.setting env Services.empty) source {})
        (run twoLines (fun _ => {}) arguments) ∧
      run twoLines (fun _ => {}) arguments = .finished 1 "2=3pq" (
        "error: undefined variable 'y'\n --> index.pipa:1:13\n  |\n" ++
        "1 | \x7b\x7b x; l[:]; y \x7d\x7d\n  |             ^\n") := by
  intro source arguments a env
  have hparse : Arguments.parse arguments = .ok a := by
    unfold arguments a source
    rfl
  have hgives : a.Gives twoLines env := Arguments.gives_of_environment (by decide +kernel)
  have hloads : a.Loads twoLines (fun _ => {}) source source Services.empty :=
    ⟨by decide +kernel, rfl, rfl⟩
  rcases run_agrees_with_render hparse rfl (textual_twoLines a) with ⟨hpresents, _⟩
  refine ⟨⟨hparse, textual_twoLines a, hloads, hgives⟩, ?_, ?_⟩
  · exact hpresents source Services.empty env hloads hgives
  · decide +kernel

/-- With a dropped value there is no environment, but that is not told of. -/
theorem run_dropped_variable :
    let source := "[\x7b\x7b v \x7d\x7d]"
    let arguments := ["-source", source, "--var=--"]
    let a : Arguments :=
      { program := some source, switches := [.literalSource], values := [(.variable, none)] }
    (Arguments.parse arguments = .ok a ∧ a.Textual twoLines ∧
        environment twoLines a = .error .noValue) ∧
      ∀ code out err, run twoLines (fun _ => {}) arguments ≠ .finished code out err := by
  intro source arguments a
  have hparse : Arguments.parse arguments = .ok a := by
    unfold arguments a source
    rfl
  have hrun : run twoLines (fun _ => {}) arguments = .crashed .noValue := by
    rw [run, hparse]
    rfl
  refine ⟨⟨hparse, textual_twoLines a, rfl⟩, ?_⟩
  intro code out err h
  rw [hrun] at h
  cases h

end Answers

end CommandLine
end Stencil
