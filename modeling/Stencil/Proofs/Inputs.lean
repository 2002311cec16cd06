import Stencil.CommandLine.Command
import Stencil.Proofs.Loading

/-!
# The inputs of a command

Before it renders, the command takes in its template, the values of its options and the
files that these name, one after another.  The first that is faulty decides how the
command ends: with a message, or with a crash, since a template or a list of extensions
that is no text is not provided for, and neither is a dropped value.  If none is faulty,
the first extension that is decides, and then only a native module crashes the command.
-/

namespace Stencil

namespace CommandLine

/-- What the command takes in. -/
inductive Input where
  /-- There is no template. -/
  | missing
  | template (name : String)
  | assignment (flag raw : String)
  | arrayFile (raw : String)
  | extension (path : String)
  /-- An option whose value was dropped. -/
  | dropped
  deriving DecidableEq

/-- How the command ends for a faulty input. -/
inductive InputFault where
  | told (message : String)
  | crash (crash : Crash)
  deriving DecidableEq

namespace InputFault

def answer : InputFault → Answer
  | told message => failure message
  | crash c => .crashed c

def ofTemplate (name : String) : ReadFault → InputFault
  | .system fault path =>
      told ("Failed to read " ++ name ++ ": " ++ (ReadFault.system fault path).message)
  | fault => crash (.unreadable fault)

def ofEnvironment : EnvironmentFault → InputFault
  | .noValue => crash .noValue
  | fault => told ("Invalid environment: " ++ fault.message)

def ofExtension : ExtensionFault → InputFault
  | .noValue => crash .noValue
  | .load (.notText fault) => crash (.unreadable fault)
  | .load (.notCreated message) => crash (.native message)
  | .load e => told ("ExtensionError: " ++ e.message)

def ofGather (g : GatherFault) : InputFault :=
  ofExtension (.load (LoadError.ofGatherFault g))

/-- The fault of a computation that takes an input in. -/
def faultOf {ε α : Type} (f : ε → InputFault) : Except ε α → Option InputFault
  | .ok _ => none
  | .error e => some (f e)

end InputFault

namespace Input

/-- What is wrong with an input. -/
def fault? (fs : FileSystem) : Input → Option InputFault
  | missing => some (.told "a template file (or -source TEXT) is required")
  | template name => InputFault.faultOf (.ofTemplate name) (fs.readText name)
  | assignment flag raw => InputFault.faultOf .ofEnvironment (splitAssignment flag raw)
  | arrayFile raw =>
      InputFault.faultOf .ofEnvironment
        (splitAssignment "--array-file" raw >>= fun (_, path) => (fs.readText path).mapError .file)
  | extension path => InputFault.faultOf .ofGather (Extension.expand fs path)
  | dropped => some (.crash .noValue)

/-- The values of an option. -/
def ofValues (input : String → Input) (values : List (Option String)) : List Input :=
  values.map fun value => (value.map input).getD dropped

/-- The inputs that crash the command. -/
inductive Crashes (fs : FileSystem) : Input → Crash → Prop where
  | template {name : String} {fault : ReadFault} (h : fs.readText name = .error fault)
      (hfault : fault.NoText) : Crashes fs (template name) (.unreadable fault)
  | list {path : String} {fault : ReadFault} (hlist : ListFile.isListFile path = true)
      (h : fs.readText path = .error fault) (hfault : fault.NoText) :
      Crashes fs (extension path) (.unreadable fault)
  | dropped : Crashes fs dropped .noValue

end Input

namespace Arguments

def environmentInputs (a : Arguments) : List Input :=
  Input.ofValues (.assignment "--var") (a.valuesOf .variable) ++
    Input.ofValues (.assignment "--array") (a.valuesOf .array) ++
    Input.ofValues .arrayFile (a.valuesOf .arrayFile)

/-- The inputs in the order in which the command comes to them. -/
def inputs (a : Arguments) : List Input :=
  match a.program with
  | none => [.missing]
  | some program =>
      (if a.has .literalSource then [] else [.template program]) ++
        (a.environmentInputs ++ Input.ofValues .extension (a.valuesOf .extension))

def firstFault (fs : FileSystem) (a : Arguments) : Option InputFault :=
  a.inputs.findSome? (Input.fault? fs)

/-- An input is faulty, or the file of an extension is missing, or its code cannot be read. -/
inductive Unreadable (fs : FileSystem) (extensions : String → Extension) (a : Arguments) :
    Prop where
  | input {input : Input} (hmem : input ∈ a.inputs) (hfault : input.fault? fs ≠ none)
  | file {path : String} {paths : List String}
      (hgather : Extension.gather fs (givenPaths (a.valuesOf .extension)) = .ok paths)
      (hmem : path ∈ paths) (hfile : fs.isFile path = false)
  | code {path : String} {paths : List String}
      (hgather : Extension.gather fs (givenPaths (a.valuesOf .extension)) = .ok paths)
      (hmem : path ∈ paths)
      (hcode : ModuleKind.native.Ends path ∨ (extensions path).ReadAt path)
      (hnot : ¬fs.Opens path) : Unreadable fs extensions a

/-- No input is faulty, and the first extension that is has a native module that is not
made. -/
inductive Unmade (fs : FileSystem) (extensions : String → Extension) (a : Arguments) :
    String → Prop where
  | first {path message : String} {paths : List String}
      (hinputs : ∀ input ∈ a.inputs, input.fault? fs = none)
      (hgather : Extension.gather fs (givenPaths (a.valuesOf .extension)) = .ok paths)
      (hfirst : FirstFailing (Extension.Sound fs extensions) paths path)
      (hfaulty : Extension.Faulty fs extensions path (.notCreated message)) :
      Unmade fs extensions a message

end Arguments

/-! ## Faults of inputs -/

namespace InputFault

variable {fault : ReadFault} {crash : Crash}

theorem ofTemplate_eq_crash {name : String} :
    ofTemplate name fault = .crash crash ↔ fault.NoText ∧ crash = .unreadable fault := by
  cases fault with
  | system e path => simp [ofTemplate, ReadFault.NoText]
  | nullInName => simp [ofTemplate, ReadFault.NoText, eq_comm]
  | encoding e => simp [ofTemplate, ReadFault.NoText, eq_comm]

theorem ofGather_eq_crash {path : String} :
    ofGather (GatherFault.ofReadFault path fault) = .crash crash ↔
      fault.NoText ∧ crash = .unreadable fault := by
  cases fault with
  | system e path =>
      simp [ofGather, ofExtension, LoadError.ofGatherFault, GatherFault.ofReadFault,
        ReadFault.NoText]
  | nullInName =>
      simp [ofGather, ofExtension, LoadError.ofGatherFault, GatherFault.ofReadFault,
        ReadFault.NoText, eq_comm]
  | encoding e =>
      simp [ofGather, ofExtension, LoadError.ofGatherFault, GatherFault.ofReadFault,
        ReadFault.NoText, eq_comm]

theorem ofEnvironment_eq_crash {fault : EnvironmentFault} :
    ofEnvironment fault = .crash crash ↔ fault = .noValue ∧ crash = .noValue := by
  cases fault with
  | assignment flag raw => simp [ofEnvironment]
  | file fault => simp [ofEnvironment]
  | noValue => simp [ofEnvironment, eq_comm]

end InputFault

theorem splitAssignment_ne_noValue (flag raw : String) :
    splitAssignment flag raw ≠ .error .noValue := by
  rw [splitAssignment]
  split
  · simp
  · simp

namespace Input

variable {fs : FileSystem} {ε α : Type} {f : ε → InputFault}

theorem ofValues_some (input : String → Input) (raw : String) (values : List (Option String)) :
    ofValues input (some raw :: values) = input raw :: ofValues input values := rfl

theorem faultOf_eq_some {x : Except ε α} {fault : InputFault} :
    InputFault.faultOf f x = some fault ↔ ∃ e, x = .error e ∧ f e = fault := by
  cases x with
  | ok a => simp [InputFault.faultOf]
  | error e => simp [InputFault.faultOf]

/-- The inputs that crash the command are those whose fault is a crash. -/
theorem crashes_iff {input : Input} {crash : Crash} :
    input.Crashes fs crash ↔ input.fault? fs = some (.crash crash) := by
  constructor
  · rintro (⟨hread, hfault⟩ | ⟨hlist, hread, hfault⟩ | _)
    · exact faultOf_eq_some.mpr ⟨_, hread, InputFault.ofTemplate_eq_crash.mpr ⟨hfault, rfl⟩⟩
    · have hexpand := Extension.expand_eq_error.mpr ⟨hlist, _, hread, rfl⟩
      exact faultOf_eq_some.mpr ⟨_, hexpand, InputFault.ofGather_eq_crash.mpr ⟨hfault, rfl⟩⟩
    · rfl
  · intro h
    cases input with
    | missing => cases h
    | template name =>
        rcases faultOf_eq_some.mp h with ⟨fault, hread, hcrash⟩
        rcases InputFault.ofTemplate_eq_crash.mp hcrash with ⟨hfault, rfl⟩
        exact .template hread hfault
    | assignment flag raw =>
        rcases faultOf_eq_some.mp h with ⟨fault, hsplit, hcrash⟩
        rcases InputFault.ofEnvironment_eq_crash.mp hcrash with ⟨rfl, _⟩
        exact absurd hsplit (splitAssignment_ne_noValue flag raw)
    | arrayFile raw =>
        rcases faultOf_eq_some.mp h with ⟨fault, hfile, hcrash⟩
        rcases InputFault.ofEnvironment_eq_crash.mp hcrash with ⟨rfl, _⟩
        rcases error_of_bind hfile with hsplit | ⟨⟨name, path⟩, _, hread⟩
        · exact absurd hsplit (splitAssignment_ne_noValue _ raw)
        · cases htext : fs.readText path <;> simp [htext, Except.mapError] at hread
    | extension path =>
        rcases faultOf_eq_some.mp h with ⟨g, hexpand, hcrash⟩
        rcases Extension.expand_eq_error.mp hexpand with ⟨hlist, fault, hread, rfl⟩
        rcases InputFault.ofGather_eq_crash.mp hcrash with ⟨hfault, rfl⟩
        exact .list hlist hread hfault
    | dropped =>
        cases h
        exact .dropped

end Input

/-! ## One input after another -/

section Sequences

variable (fs : FileSystem) {α : Type}

open Input (ofValues)
open InputFault (faultOf)

/-- The assignments of one option fail with the first that is faulty. -/
theorem faultOf_collect (flag : String) (read : String → Except EnvironmentFault α)
    (input : String → Input)
    (hinput : ∀ raw, (input raw).fault? fs = faultOf InputFault.ofEnvironment
      (splitAssignment flag raw >>= fun (_, value) => read value))
    (values : List (Option String)) (entries : List (String × α)) :
    faultOf InputFault.ofEnvironment (collect flag read entries values) =
      (ofValues input values).findSome? (Input.fault? fs) := by
  induction values generalizing entries with
  | nil => rfl
  | cons value values ih =>
      cases value with
      | none => rfl
      | some raw =>
          have hraw := hinput raw
          rw [Input.ofValues_some, List.findSome?_cons, hraw, collect]
          cases hsplit : splitAssignment flag raw with
          | error fault => rfl
          | ok assignment =>
              cases hread : read assignment.2 with
              | error fault => simp [bind, Except.bind, hread, faultOf]
              | ok a =>
                  simp only [bind, Except.bind, hread, faultOf]
                  exact ih (Entries.set assignment.1 a entries)

theorem fault?_assignment (flag raw : String) {read : String → Except EnvironmentFault α}
    (hread : ∀ value, ∃ a, read value = .ok a) :
    (Input.assignment flag raw).fault? fs = faultOf InputFault.ofEnvironment
      (splitAssignment flag raw >>= fun (_, value) => read value) := by
  rw [Input.fault?]
  cases splitAssignment flag raw with
  | error fault => rfl
  | ok assignment =>
      rcases hread assignment.2 with ⟨a, ha⟩
      simp [bind, Except.bind, ha, faultOf]

theorem fault?_arrayFile (raw : String) (read : String → α) :
    (Input.arrayFile raw).fault? fs = faultOf InputFault.ofEnvironment
      (splitAssignment "--array-file" raw >>= fun (_, path) =>
        ((fs.readText path).mapError .file).map read) := by
  rw [Input.fault?]
  cases splitAssignment "--array-file" raw with
  | error fault => rfl
  | ok assignment =>
      cases hread : fs.readText assignment.2 <;>
        simp [bind, Except.bind, hread, Except.mapError, Except.map, faultOf]

theorem faultOf_environment (a : Arguments) :
    faultOf InputFault.ofEnvironment (environment fs a) =
      a.environmentInputs.findSome? (Input.fault? fs) := by
  have hscalars := faultOf_collect fs "--var" .ok (.assignment "--var")
    (fun raw => fault?_assignment fs "--var" raw fun value => ⟨value, rfl⟩)
    (a.valuesOf .variable) []
  have harrays := faultOf_collect fs "--array" _ (.assignment "--array")
    (fun raw => fault?_assignment fs "--array" raw fun value =>
      ⟨Text.splitItems (String.ofList (unescapeLineFeeds value.toList)), rfl⟩)
    (a.valuesOf .array) []
  have hfiles := faultOf_collect fs "--array-file"
    (fun path => ((fs.readText path).mapError .file).map Text.splitItems) .arrayFile
    (fun raw => fault?_arrayFile fs raw Text.splitItems) (a.valuesOf .arrayFile)
  rw [Arguments.environmentInputs, List.findSome?_append, List.findSome?_append, ← hscalars,
    ← harrays, environment]
  generalize collect "--var" .ok [] (a.valuesOf .variable) = scalars
  cases scalars with
  | error fault => rfl
  | ok scalars =>
      generalize collect "--array" _ [] (a.valuesOf .array) = arrays
      cases arrays with
      | error fault => rfl
      | ok arrays =>
          rw [← hfiles arrays]
          simp only [bind, Except.bind]
          generalize collect "--array-file" _ arrays (a.valuesOf .arrayFile) = both
          cases both with
          | error fault => rfl
          | ok both => rfl

/-- A template is read unless it is the source itself. -/
theorem faultOf_template (a : Arguments) (program : String) :
    faultOf (InputFault.ofTemplate program) (template fs program a) =
      (if a.has .literalSource then [] else [Input.template program]).findSome?
        (Input.fault? fs) := by
  rw [template]
  split
  · rfl
  · rw [List.findSome?_singleton, Input.fault?]
    cases fs.readText program with
    | error fault => rfl
    | ok text => rfl

/-- Extensions are gathered up to the first that is faulty. -/
theorem findSome?_extensions (values : List (Option String)) :
    (ofValues .extension values).findSome? (Input.fault? fs) =
      match Extension.gather fs (givenPaths values) with
      | .error g => some (.ofGather g)
      | .ok _ => if values.all Option.isSome then none else some (.crash .noValue) := by
  induction values with
  | nil => rfl
  | cons value values ih =>
      cases value with
      | none => rfl
      | some path =>
          have hgiven : givenPaths (some path :: values) = path :: givenPaths values := by
            simp [givenPaths]
          rw [Input.ofValues_some, List.findSome?_cons, ih, hgiven, Extension.gather, Input.fault?]
          cases Extension.expand fs path with
          | error g => rfl
          | ok paths =>
              cases Extension.gather fs (givenPaths values) with
              | error g => rfl
              | ok others => rfl

end Sequences

/-! ## Extensions -/

section Extensions

variable {fs : FileSystem} {extensions : String → Extension} {path : String} {e : LoadError}

/-- A faulty extension is told of, or its native module is not made. -/
theorem ofExtension_of_faulty (h : Extension.Faulty fs extensions path e) :
    (∃ message, e = .notCreated message ∧
        InputFault.ofExtension (.load e) = .crash (.native message)) ∨
      (∀ message, e ≠ .notCreated message) ∧
        InputFault.ofExtension (.load e) = .told ("ExtensionError: " ++ e.message) := by
  rcases h with ⟨check, _, hfails⟩
  cases e with
  | notText fault => exact absurd rfl (Check.ne_notText_of_fails hfails fault)
  | notCreated message => exact .inl ⟨message, rfl, rfl⟩
  | _ => exact .inr ⟨nofun, rfl⟩

/-- The code of an extension that passes its checks is there. -/
theorem readable_of_sound (h : Extension.Sound fs extensions path) :
    fs.isFile path = true ∧
      (ModuleKind.native.Ends path ∨ (extensions path).ReadAt path → fs.Opens path) := by
  refine ⟨h .found (by decide), ?_⟩
  rintro (hnative | hcode)
  · exact (h .created (by decide) hnative).1
  · exact (h .imported (by decide)).1 hcode

end Extensions

/-! ## Answers -/

section Answers

variable {fs : FileSystem} (extensions : String → Extension) {a : Arguments} {fault : InputFault}

open Input (ofValues)
open InputFault (faultOf)

theorem loadExtensions_of_fault {values : List (Option String)}
    (h : (ofValues .extension values).findSome? (Input.fault? fs) = some fault) :
    ∃ e, loadExtensions fs extensions values = .error e ∧ .ofExtension e = fault := by
  rw [findSome?_extensions] at h
  rw [loadExtensions, Extension.load]
  cases hgather : Extension.gather fs (givenPaths values) with
  | error g =>
      rw [hgather] at h
      cases h
      refine ⟨.load (LoadError.ofGatherFault g), ?_, rfl⟩
      split
      · rfl
      · rfl
  | ok paths =>
      rw [hgather] at h
      dsimp only at h
      split at h
      · cases h
      · rename_i hall
        cases h
        rw [if_neg hall]
        exact ⟨.noValue, rfl, rfl⟩

/-- If the paths of all extensions are gathered, loading them fails for the first that is
faulty. -/
theorem loadExtensions_of_gathered {values : List (Option String)}
    (h : (ofValues .extension values).findSome? (Input.fault? fs) = none) :
    ∃ paths, Extension.gather fs (givenPaths values) = .ok paths ∧
      ((∃ path e, FirstFailing (Extension.Sound fs extensions) paths path ∧
          Extension.Faulty fs extensions path e ∧
          loadExtensions fs extensions values = .error (.load e)) ∨
        (∃ services, loadExtensions fs extensions values = .ok services) ∧
          ∀ path ∈ paths, Extension.Sound fs extensions path) := by
  rw [findSome?_extensions] at h
  cases hgather : Extension.gather fs (givenPaths values) with
  | error g => simp [hgather] at h
  | ok paths =>
      simp only [hgather, ite_eq_left_iff, reduceCtorEq, imp_false, Bool.not_eq_true,
        Bool.not_eq_false] at h
      refine ⟨paths, rfl, ?_⟩
      have hload : loadExtensions fs extensions values =
          (Extension.loadAll fs extensions 0 Services.empty paths).mapError .load := by
        rw [loadExtensions, if_pos h, Extension.load_of_gathered hgather]
      have hscreens := Extension.screens_loadAll fs extensions paths 0 Services.empty
      rw [hload]
      cases hresult : Extension.loadAll fs extensions 0 Services.empty paths with
      | error e =>
          rcases (hscreens.error e).mp hresult with ⟨path, hfirst, hfaulty⟩
          exact .inl ⟨path, e, hfirst, hfaulty, rfl⟩
      | ok services => exact .inr ⟨⟨services, rfl⟩, hscreens.ok.mp ⟨services, hresult⟩⟩

theorem renderWith_of_environment {fault : EnvironmentFault} (h : environment fs a = .error fault)
    (source label : String) :
    renderWith fs extensions a source label = (InputFault.ofEnvironment fault).answer := by
  rw [renderWith, h]
  cases fault with
  | noValue => rfl
  | assignment flag raw => rfl
  | file fault => rfl

theorem renderWith_of_extensions {env : Environment} {e : ExtensionFault}
    (henv : environment fs a = .ok env)
    (h : loadExtensions fs extensions (a.valuesOf .extension) = .error e)
    (source label : String) :
    renderWith fs extensions a source label = (InputFault.ofExtension e).answer := by
  rw [renderWith, henv]
  simp only [h]
  cases e with
  | noValue => rfl
  | load e => cases e <;> rfl

/-- How the command ends once its template is read. -/
theorem renderWith_answers (fs : FileSystem) (a : Arguments) (source label : String) :
    match (a.environmentInputs ++ ofValues .extension (a.valuesOf .extension)).findSome?
        (Input.fault? fs) with
    | some fault => renderWith fs extensions a source label = fault.answer
    | none => ∃ paths, Extension.gather fs (givenPaths (a.valuesOf .extension)) = .ok paths ∧
        ((∃ path e, FirstFailing (Extension.Sound fs extensions) paths path ∧
            Extension.Faulty fs extensions path e ∧
            renderWith fs extensions a source label =
              (InputFault.ofExtension (.load e)).answer) ∨
          (∃ r, renderWith fs extensions a source label = present a label source r) ∧
            ∀ path ∈ paths, Extension.Sound fs extensions path) := by
  rw [List.findSome?_append, ← faultOf_environment]
  cases henv : environment fs a with
  | error fault => exact renderWith_of_environment extensions henv source label
  | ok env =>
      change match (ofValues .extension (a.valuesOf .extension)).findSome? (Input.fault? fs) with
        | some fault => _
        | none => _
      cases hextensions : (ofValues .extension (a.valuesOf .extension)).findSome?
          (Input.fault? fs) with
      | some fault =>
          rcases loadExtensions_of_fault extensions hextensions with ⟨e, hload, rfl⟩
          exact renderWith_of_extensions extensions henv hload source label
      | none =>
          rcases loadExtensions_of_gathered extensions hextensions with
            ⟨paths, hgather, ⟨path, e, hfirst, hfaulty, hload⟩ | ⟨⟨services, hload⟩, hsound⟩⟩
          · exact ⟨paths, hgather, .inl ⟨path, e, hfirst, hfaulty,
              renderWith_of_extensions extensions henv hload source label⟩⟩
          · refine ⟨paths, hgather, .inr ⟨?_, hsound⟩⟩
            rw [renderWith, henv]
            simp only [hload]
            exact ⟨_, rfl⟩

theorem execute_of_template {program : String} (source label : String)
    (hprogram : a.program = some program) (h : template fs program a = .ok (source, label)) :
    execute fs extensions a = renderWith fs extensions a source label := by
  rw [execute, hprogram]
  simp only [h]

theorem execute_of_unread {program : String} {fault : ReadFault}
    (hprogram : a.program = some program) (h : template fs program a = .error fault) :
    execute fs extensions a = (InputFault.ofTemplate program fault).answer := by
  rw [execute, hprogram]
  simp only [h]
  cases fault <;> rfl

/-- The first faulty input decides, or else the first faulty extension; otherwise the template
is rendered. -/
theorem execute_answers (fs : FileSystem) (a : Arguments) :
    match a.firstFault fs with
    | some fault => execute fs extensions a = fault.answer
    | none => ∃ paths, Extension.gather fs (givenPaths (a.valuesOf .extension)) = .ok paths ∧
        ((∃ path e, FirstFailing (Extension.Sound fs extensions) paths path ∧
            Extension.Faulty fs extensions path e ∧
            execute fs extensions a = (InputFault.ofExtension (.load e)).answer) ∨
          (∃ source label r, execute fs extensions a = present a label source r) ∧
            ∀ path ∈ paths, Extension.Sound fs extensions path) := by
  rw [Arguments.firstFault, Arguments.inputs]
  cases hprogram : a.program with
  | none =>
      change execute fs extensions a = _
      rw [execute, hprogram]
      rfl
  | some program =>
      dsimp only
      rw [List.findSome?_append, ← faultOf_template]
      cases htemplate : template fs program a with
      | error fault => exact execute_of_unread extensions hprogram htemplate
      | ok taken =>
          rw [faultOf, Option.none_or,
            execute_of_template extensions taken.1 taken.2 hprogram htemplate]
          have hanswers := renderWith_answers extensions fs a taken.1 taken.2
          revert hanswers
          split
          · exact id
          · rintro ⟨paths, hgather, hfaulty | ⟨⟨r, hpresent⟩, hsound⟩⟩
            · exact ⟨paths, hgather, .inl hfaulty⟩
            · exact ⟨paths, hgather, .inr ⟨⟨taken.1, taken.2, r, hpresent⟩, hsound⟩⟩

theorem firstFault_eq_crash {crash : Crash} :
    a.firstFault fs = some (.crash crash) ↔
      ∃ before input after, a.inputs = before ++ input :: after ∧
        (∀ other ∈ before, other.fault? fs = none) ∧ input.Crashes fs crash := by
  rw [Arguments.firstFault, List.findSome?_eq_some_iff]
  simp only [Input.crashes_iff, and_comm]

theorem answer_eq_crashed {crash : Crash} :
    fault.answer = .crashed crash ↔ fault = .crash crash := by
  cases fault with
  | crash c => simp [InputFault.answer]
  | told message => simp [InputFault.answer, failure]

/-- The first faulty extension crashes the command if its native module is not made. -/
theorem crashes_of_faulty_iff {paths : List String} {path : String} {e : LoadError}
    {crash : Crash} (hinputs : a.firstFault fs = none)
    (hgather : Extension.gather fs (givenPaths (a.valuesOf .extension)) = .ok paths)
    (hfirst : FirstFailing (Extension.Sound fs extensions) paths path)
    (hfaulty : Extension.Faulty fs extensions path e) :
    InputFault.ofExtension (.load e) = .crash crash ↔
      ∃ message, crash = .native message ∧ a.Unmade fs extensions message := by
  have hscreens := Extension.screens_loadAll fs extensions paths 0 Services.empty
  have hload := (hscreens.error e).mpr ⟨path, hfirst, hfaulty⟩
  constructor
  · intro h
    rcases ofExtension_of_faulty hfaulty with ⟨message, rfl, hcrash⟩ | ⟨_, htold⟩
    · cases hcrash.symm.trans h
      exact ⟨message, rfl, .first (List.findSome?_eq_none_iff.mp hinputs) hgather hfirst hfaulty⟩
    · cases htold.symm.trans h
  · rintro ⟨message, rfl, hunmade⟩
    cases hunmade with
    | first _ hgather' hfirst' hfaulty' =>
        cases Except.ok.inj (hgather.symm.trans hgather')
        have hload' := (hscreens.error (.notCreated message)).mpr ⟨_, hfirst', hfaulty'⟩
        cases Except.error.inj (hload.symm.trans hload')
        rfl

theorem execute_eq_crashed {crash : Crash} :
    execute fs extensions a = .crashed crash ↔ a.firstFault fs = some (.crash crash) ∨
      ∃ message, crash = .native message ∧ a.Unmade fs extensions message := by
  have hanswers := execute_answers extensions fs a
  cases hfirst : a.firstFault fs with
  | some fault =>
      rw [hfirst] at hanswers
      change execute fs extensions a = fault.answer at hanswers
      rw [hanswers, answer_eq_crashed, Option.some.injEq, or_iff_left]
      rintro ⟨message, _, hunmade⟩
      cases hunmade with
      | first hinputs =>
          cases hfirst.symm.trans (List.findSome?_eq_none_iff.mpr hinputs)
  | none =>
      rw [hfirst] at hanswers
      rw [or_iff_right nofun]
      rcases hanswers with
        ⟨paths, hgather, ⟨path, e, hpath, hfaulty, hexecute⟩ |
          ⟨⟨source, label, r, hpresent⟩, hsound⟩⟩
      · rw [hexecute, answer_eq_crashed]
        exact crashes_of_faulty_iff extensions hfirst hgather hpath hfaulty
      · rw [hpresent]
        refine iff_of_false (by simp [present]) ?_
        rintro ⟨message, _, hunmade⟩
        cases hunmade with
        | first _ hgather' hpath _ =>
            cases Except.ok.inj (hgather.symm.trans hgather')
            exact hpath.not_forall hsound

/-- The answer that a command gives if it does not crash. -/
def Answer.Finishes (answer : Answer) (unreadable : Prop) : Prop :=
  ∃ code out err, answer = .finished code out err ∧ code ≤ 1 ∧
    (unreadable → code = 1 ∧ out = "" ∧ err ≠ "")

theorem finishes_failure (message : String) (unreadable : Prop) :
    (failure message).Finishes unreadable := by
  have hne : message ++ "\n" ≠ "" := by
    intro h
    have hlength := congrArg String.length h
    simp at hlength
  exact ⟨1, "", message ++ "\n", rfl, Nat.le_refl 1, fun _ => ⟨rfl, rfl, hne⟩⟩

theorem finishes_present (label source : String) (r : Rendering World) {unreadable : Prop}
    (h : ¬unreadable) : (present a label source r).Finishes unreadable := by
  refine ⟨_, _, _, rfl, ?_, fun hunreadable => absurd hunreadable h⟩
  split
  · exact Nat.zero_le 1
  · exact Nat.le_refl 1

/-- What is faulty and does not crash the command is told of. -/
theorem execute_finishes (h : ∀ crash, execute fs extensions a ≠ .crashed crash) :
    (execute fs extensions a).Finishes (a.Unreadable fs extensions) := by
  have hanswers := execute_answers extensions fs a
  have htold {fault : InputFault} (hfault : execute fs extensions a = fault.answer) :
      (execute fs extensions a).Finishes (a.Unreadable fs extensions) := by
    rw [hfault]
    cases fault with
    | crash c => exact absurd hfault (h c)
    | told message => exact finishes_failure message _
  cases hfirst : a.firstFault fs with
  | some fault =>
      rw [hfirst] at hanswers
      exact htold hanswers
  | none =>
      rw [hfirst] at hanswers
      rcases hanswers with
        ⟨paths, hgather, ⟨path, e, _, _, hexecute⟩ | ⟨⟨source, label, r, hpresent⟩, hsound⟩⟩
      · exact htold hexecute
      · rw [hpresent]
        apply finishes_present
        intro hunreadable
        cases hunreadable with
        | input hmem hfault => exact absurd (List.findSome?_eq_none_iff.mp hfirst _ hmem) hfault
        | file hgather' hmem hfile =>
            cases Except.ok.inj (hgather.symm.trans hgather')
            cases hfile.symm.trans (readable_of_sound (hsound _ hmem)).1
        | code hgather' hmem hcode hnot =>
            cases Except.ok.inj (hgather.symm.trans hgather')
            exact hnot ((readable_of_sound (hsound _ hmem)).2 hcode)

/-- A command whose arguments are accepted crashes if and only if its first faulty input
is a template or a list of extensions that is no text, or a dropped value, or if no input is
faulty and the first faulty extension has a native module that is not made.  Otherwise it
finishes with status zero or one, and if an input or an extension cannot be read, with
status one, a message and no output. -/
theorem run_crashes_or_finishes (fs : FileSystem) {arguments : List String}
    (h : Arguments.parse arguments = .ok a) :
    (∀ crash, run fs extensions arguments = .crashed crash ↔
      (∃ before input after, a.inputs = before ++ input :: after ∧
        (∀ other ∈ before, other.fault? fs = none) ∧ input.Crashes fs crash) ∨
      ∃ message, crash = .native message ∧ a.Unmade fs extensions message) ∧
    ((∀ crash, run fs extensions arguments ≠ .crashed crash) →
      ∃ code out err, run fs extensions arguments = .finished code out err ∧ code ≤ 1 ∧
        (a.Unreadable fs extensions → code = 1 ∧ out = "" ∧ err ≠ "")) := by
  have hrun : run fs extensions arguments = execute fs extensions a := by
    rw [run, h]
  rw [hrun]
  constructor
  · intro crash
    rw [execute_eq_crashed, firstFault_eq_crash]
  · exact execute_finishes extensions

/-- A template of a single byte that begins no character, beside an array file of the
same kind. -/
def untextual : FileSystem where
  directory := "/"
  contents := fun name =>
    if name = "t.pipa" ∨ name = "items" then .ok [0xff] else .error .notFound

/-- As a template it crashes the command. -/
theorem run_untextual_template :
    Arguments.parse ["t.pipa"] = .ok { program := some "t.pipa" } ∧
      run untextual (fun _ => {}) ["t.pipa"] =
        .crashed (.unreadable (.encoding ⟨.invalidStart, 0xff, 0, 0⟩)) := by
  constructor
  · rfl
  · decide +kernel

/-- As an array file it is told of. -/
theorem run_untextual_array :
    let arguments := ["-source", "x", "--array-file", "a=items"]
    let a : Arguments :=
      { program := some "x", switches := [.literalSource],
        values := [(.arrayFile, some "a=items")] }
    Arguments.parse arguments = .ok a ∧ a.Unreadable untextual (fun _ => {}) ∧
      (∀ crash, run untextual (fun _ => {}) arguments ≠ .crashed crash) ∧
      ∃ err, run untextual (fun _ => {}) arguments = .finished 1 "" err ∧ err ≠ "" := by
  intro arguments a
  have hparse : Arguments.parse arguments = .ok a := rfl
  have hinputs : a.inputs = [.arrayFile "a=items"] := rfl
  have hunreadable : a.Unreadable untextual (fun _ => {}) := by
    have hmem : .arrayFile "a=items" ∈ a.inputs := by
      rw [hinputs]
      exact List.mem_singleton_self _
    exact .input hmem (by decide +kernel)
  rcases run_crashes_or_finishes (fun _ => {}) untextual hparse with ⟨hcrashes, hfinishes⟩
  have hnever : ∀ crash, run untextual (fun _ => {}) arguments ≠ .crashed crash := by
    intro crash hcrash
    rcases (hcrashes crash).mp hcrash with ⟨before, input, after, hsplit, _, hinput⟩ | hunmade
    · have hmem : input ∈ a.inputs := by
        rw [hsplit]
        exact List.mem_append_right _ List.mem_cons_self
      rw [hinputs, List.mem_singleton] at hmem
      rw [hmem] at hinput
      cases hinput
    · rcases hunmade with ⟨message, _, hfirst⟩
      cases hfirst with
      | first hnone =>
          have hfaulty : (Input.arrayFile "a=items").fault? untextual ≠ none := by decide +kernel
          exact absurd (hnone _ (hinputs ▸ List.mem_singleton_self _)) hfaulty
  rcases hfinishes hnever with ⟨code, out, err, hrun, _, hunread⟩
  rcases hunread hunreadable with ⟨rfl, rfl, herr⟩
  exact ⟨hparse, hunreadable, hnever, err, hrun, herr⟩

end Answers

end CommandLine

end Stencil
