import Stencil.Extension.Description
import Stencil.Extension.Gather

/-!
# Loading extensions

All paths are gathered before anything is imported.  The extensions are then
imported and registered one after another, in the order of their paths.  The
first fault ends the loading; for one path the checks are made in the order of
the constructors below.

How the file of an extension is imported depends on the end of its name.  Source
and bytecode are read and run.  A native module is linked, and code of its own
makes the module.
-/

namespace Stencil

/-- The version of the interface for extensions. -/
inductive ApiVersion where
  | number (n : Int)
  | other (text : String)
  deriving DecidableEq

inductive ModuleKind where
  | native
  | source
  | bytecode
  deriving DecidableEq

/-- What code of an extension raises: the error that is meant for extensions, or any
other. -/
inductive Raised where
  | extension (message : String)
  | ordinary (message : String)
  deriving DecidableEq

/-- An extension described as data. -/
structure Extension where
  /-- What making its module fails with, if it is native. -/
  creationError : Option Raised := none
  /-- Its source is not read, since its bytecode is kept beside it. -/
  compiled : Bool := false
  /-- What running its code fails with. -/
  importError : Option String := none
  apiVersion : ApiVersion := .number 1
  /-- Whether it has a function that registers it. -/
  registers : Bool := true
  /-- The file's stem stands for a name that is not given. -/
  name : Option String := none
  hooks : List HookDescription := []
  /-- What registering fails with after the hooks are registered. -/
  registerError : Option Raised := none

inductive LoadError where
  | unreadableList (path : String) (fault : SystemFault)
  | notText (fault : ReadFault)
  | notFound (path : String)
  | notImportable (path : String)
  /-- What is raised as a module is made; this is not told as a fault of extensions. -/
  | notCreated (message : String)
  | importFailed (path reason : String)
  | wrongVersion (path : String) (version : ApiVersion)
  | noRegister (path : String)
  | refused (refusal : Refusal)
  | registerFailed (path reason : String)
  /-- What the extension itself raises as an error of extensions. -/
  | raised (message : String)
  deriving DecidableEq

namespace ModuleKind

def suffix : ModuleKind → List Char
  | native => ['.', 's', 'o']
  | source => ['.', 'p', 'y']
  | bytecode => ['.', 'p', 'y', 'c']

/-- The kind of the module in a file, told by the end of its name. -/
def ofPath? (path : String) : Option ModuleKind :=
  [native, source, bytecode].find? fun kind => kind.suffix.isSuffixOf path.toList

end ModuleKind

namespace ApiVersion

def provided : Int := 1

def text : ApiVersion → String
  | number n => toString n
  | other text => text

end ApiVersion

namespace LoadError

def message : LoadError → String
  | unreadableList path fault =>
      "Cannot read extension list " ++ path ++ ": " ++ (ReadFault.system fault path).message
  | notText fault => fault.message
  | notFound path => "Extension not found: " ++ path
  | notImportable path => "Cannot import extension " ++ path
  | notCreated message => message
  | importFailed path reason => "Extension " ++ path ++ " failed to import: " ++ reason
  | wrongVersion path version =>
      "Extension " ++ path ++ " targets API " ++ version.text ++ ", this pipa provides " ++
        toString ApiVersion.provided
  | noRegister path => "Extension " ++ path ++ " has no pipa_register(ext) function"
  | refused refusal => refusal.message
  | registerFailed path reason => "Extension " ++ path ++ " failed to register: " ++ reason
  | raised message => message

def ofGatherFault : GatherFault → LoadError
  | .unreadableList path fault => unreadableList path fault
  | .notText fault => notText fault

def ofCreation : Raised → LoadError
  | .extension message => raised message
  | .ordinary message => notCreated message

def ofRegistration (path : String) : Raised → LoadError
  | .extension message => raised message
  | .ordinary reason => registerFailed path reason

end LoadError

namespace Extension

/-- The name under which the extension at a path registers its hooks. -/
def ownerAt (path : String) (e : Extension) : String :=
  e.name.getD (String.ofList (Path.stem path.toList))

/-- What is raised as the module is made.  A file that cannot be read is not linked. -/
def creationFault (fs : FileSystem) (path : String) (e : Extension) :
    ModuleKind → Option Raised
  | .native =>
      match fs.contents path with
      | .error fault =>
          some (.ordinary (path ++ ": cannot open shared object file: " ++ fault.reason))
      | .ok _ => e.creationError
  | .source => none
  | .bytecode => none

/-- Whether the code is read from the file. -/
def readsFile (e : Extension) : ModuleKind → Bool
  | .native => false
  | .source => !e.compiled
  | .bytecode => true

/-- Why the code of the module is not run to its end. -/
def importFault (fs : FileSystem) (path : String) (e : Extension) (kind : ModuleKind) :
    Option String :=
  if e.readsFile kind then
    match fs.contents path with
    | .error fault => some (ReadFault.system fault path).message
    | .ok _ => e.importError
  else e.importError

/-- The extension at a path, if it can be imported. -/
def importAt (fs : FileSystem) (extensions : String → Extension) (path : String) :
    Except LoadError Extension :=
  if !fs.isFile path then .error (.notFound path)
  else
    match ModuleKind.ofPath? path with
    | none => .error (.notImportable path)
    | some kind =>
        let e := extensions path
        match e.creationFault fs path kind with
        | some raised => .error (LoadError.ofCreation raised)
        | none =>
            match e.importFault fs path kind with
            | some reason => .error (.importFailed path reason)
            | none => .ok e

/-- Registers the hooks of an extension; `installation` tells them apart from the
hooks of other installations. -/
def registerAt (path : String) (installation : Nat) (e : Extension)
    (s : Services World) : Except LoadError (Services World) :=
  if e.apiVersion ≠ .number ApiVersion.provided then .error (.wrongVersion path e.apiVersion)
  else if !e.registers then .error (.noRegister path)
  else
    match s.registerAll
        (HookDescription.allRegistrations (e.ownerAt path) installation e.hooks) with
    | (_, some refusal) => .error (.refused refusal)
    | (s, none) =>
        match e.registerError with
        | some raised => .error (LoadError.ofRegistration path raised)
        | none => .ok s

/-- Loads the extensions at gathered paths, the first being number
`installation`. -/
def loadAll (fs : FileSystem) (extensions : String → Extension) (installation : Nat)
    (s : Services World) : List String → Except LoadError (Services World)
  | [] => .ok s
  | path :: rest => do
      let e ← importAt fs extensions path
      let s ← e.registerAt path installation s
      loadAll fs extensions (installation + 1) s rest

def load (fs : FileSystem) (extensions : String → Extension) (paths : List String) :
    Except LoadError (Services World) := do
  let gathered ← (gather fs paths).mapError LoadError.ofGatherFault
  loadAll fs extensions 0 Services.empty gathered

end Extension

end Stencil
