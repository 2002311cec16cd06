import Stencil.CommandLine.Arguments
import Stencil.Extension.Load
import Stencil.Rendering

/-!
# The command

The template is read, then the environment, then the extensions are loaded; the
first of these that fails ends the command with a message.  Otherwise the
template is rendered.  Its output goes to the standard output, and what the
extensions print, the console listing, the diagnostic and the tracebacks, in this
order, to the standard error.
-/

namespace Stencil
namespace CommandLine

/-- What the command does not provide for: a file that is no text, a native module
that is not made, and an option whose value was dropped. -/
inductive Crash where
  | unreadable (fault : ReadFault)
  | native (message : String)
  | noValue
  deriving DecidableEq

inductive Answer where
  | finished (code : Nat) (stdout stderr : String)
  /-- Arguments for which the command does not run. -/
  | stopped (reason : Stop)
  | crashed (crash : Crash)
  deriving DecidableEq

inductive EnvironmentFault where
  | assignment (flag raw : String)
  | file (fault : ReadFault)
  | noValue
  deriving DecidableEq

inductive ExtensionFault where
  | load (error : LoadError)
  | noValue
  deriving DecidableEq

namespace Stop

def code : Stop → Nat
  | helpShown => 0
  | usage => 2

end Stop

namespace Crash

def message : Crash → String
  | unreadable fault => fault.message
  | native message => message
  | noValue => "an option has no value"

end Crash

namespace EnvironmentFault

def message : EnvironmentFault → String
  | assignment flag raw => flag ++ " expects NAME=VALUE, got " ++ Text.literal raw
  | file fault => fault.message
  | noValue => Crash.noValue.message

end EnvironmentFault

/-- A name and a value, parted by the first equals sign.  The name is not empty. -/
def splitAssignment (flag raw : String) : Except EnvironmentFault (String × String) :=
  let name := raw.toList.takeWhile (· != '=')
  match name, raw.toList.drop name.length with
  | _ :: _, _ :: value => .ok (String.ofList name, String.ofList value)
  | _, _ => .error (.assignment flag raw)

/-- A backslash with an n stands for a line feed, since shells make real ones
hard to write. -/
def unescapeLineFeeds : List Char → List Char
  | [] => []
  | '\\' :: 'n' :: rest => '\n' :: unescapeLineFeeds rest
  | c :: rest => c :: unescapeLineFeeds rest

/-- Adds the assignments of one option to earlier ones; the last of a name
counts. -/
def collect {α : Type} (flag : String) (read : String → Except EnvironmentFault α)
    (entries : List (String × α)) :
    List (Option String) → Except EnvironmentFault (List (String × α))
  | [] => .ok entries
  | none :: _ => .error .noValue
  | some raw :: rest => do
      let (name, value) ← splitAssignment flag raw
      let a ← read value
      collect flag read (Entries.set name a entries) rest

def environment (fs : FileSystem) (a : Arguments) :
    Except EnvironmentFault Environment := do
  let scalars ← collect "--var" .ok [] (a.valuesOf .variable)
  let arrays ← collect "--array"
    (fun value => .ok (Text.splitItems (String.ofList (unescapeLineFeeds value.toList))))
    [] (a.valuesOf .array)
  let arrays ← collect "--array-file"
    (fun path => ((fs.readText path).mapError .file).map Text.splitItems)
    arrays (a.valuesOf .arrayFile)
  return ⟨scalars, arrays⟩

def defaultLabel : String := "index.pipa"

/-- The label in diagnostics: the one given last, unless it is empty, or else
`other`. -/
def label (other : String) (a : Arguments) : String :=
  match (a.valuesOf .label).getLast? with
  | some (some given) => if given = "" then other else given
  | _ => other

/-- The template and its label. -/
def template (fs : FileSystem) (program : String) (a : Arguments) :
    Except ReadFault (String × String) :=
  if a.has .literalSource then .ok (program, label defaultLabel a)
  else (fs.readText program).map fun source => (source, label program a)

/-- The paths that are given, up to the first option without one. -/
def givenPaths (values : List (Option String)) : List String :=
  (values.takeWhile Option.isSome).filterMap id

/-- Loads extensions.  A missing path shows when its turn to be gathered comes. -/
def loadExtensions (fs : FileSystem) (extensions : String → Extension)
    (values : List (Option String)) : Except ExtensionFault (Services World) :=
  if values.all Option.isSome then
    (Extension.load fs extensions (givenPaths values)).mapError .load
  else
    match Extension.gather fs (givenPaths values) with
    | .error e => .error (.load (LoadError.ofGatherFault e))
    | .ok _ => .error .noValue

def failure (message : String) : Answer :=
  .finished 1 "" (message ++ "\n")

/-- The error output of a rendering, after what the extensions printed. -/
def errorText (a : Arguments) (label source : String) (r : Rendering World) : String :=
  let line (text : Option String) : String := (text.map (· ++ "\n")).getD ""
  (if a.has .console then r.console else "") ++
    r.diagnosticText label source ++
    (if a.has .verbose then line (r.traceback? label source true) else "") ++
    (if a.has .tracebackJson then line (r.tracebackJson? label) else "")

def printed : Rendering World → String
  | .rejected _ => ""
  | .ran _ _ outcome => outcome.state.host.world.printed

def present (a : Arguments) (label source : String) (r : Rendering World) : Answer :=
  .finished (if r.succeeded then 0 else 1) r.output (printed r ++ errorText a label source r)

/-- The command once its template is read. -/
def renderWith (fs : FileSystem) (extensions : String → Extension) (a : Arguments)
    (source label : String) : Answer :=
  match environment fs a with
  | .error .noValue => .crashed .noValue
  | .error fault => failure ("Invalid environment: " ++ fault.message)
  | .ok env =>
      match loadExtensions fs extensions (a.valuesOf .extension) with
      | .error .noValue => .crashed .noValue
      | .error (.load (.notText fault)) => .crashed (.unreadable fault)
      | .error (.load (.notCreated message)) => .crashed (.native message)
      | .error (.load e) => failure ("ExtensionError: " ++ e.message)
      | .ok services =>
          let setting : Setting World := {
            machine := "", environment := env, registry := services.registry,
            sink := Sink.accepting, verbose := a.has .verbose }
          present a label source (render setting source {})

/-- The command for parsed arguments. -/
def execute (fs : FileSystem) (extensions : String → Extension) (a : Arguments) : Answer :=
  match a.program with
  | none => failure "a template file (or -source TEXT) is required"
  | some program =>
      match template fs program a with
      | .error (.system fault name) =>
          failure ("Failed to read " ++ program ++ ": " ++ (ReadFault.system fault name).message)
      | .error fault => .crashed (.unreadable fault)
      | .ok (source, label) => renderWith fs extensions a source label

def run (fs : FileSystem) (extensions : String → Extension) (arguments : List String) :
    Answer :=
  match Arguments.parse arguments with
  | .error reason => .stopped reason
  | .ok a => execute fs extensions a

end CommandLine
end Stencil
