import Stencil.CommandLine.Command

/-!
# The program

Reads the files that its arguments may name, and answers as the command does.
The statistics extension is built in, under every path whose stem is its name.
-/

namespace Stencil
namespace Shell

/-- The number of a system error may be given as its negative, modulo a word. -/
def errorNumber (n : UInt32) : Nat :=
  if n.toNat < 0x80000000 then n.toNat else 0x100000000 - n.toNat

def systemFault (number : UInt32) (reason : String) : SystemFault :=
  let faults :=
    [SystemFault.notFound, .permissionDenied, .notDirectory, .isDirectory, .nameTooLong]
  (faults.find? (·.number == errorNumber number)).getD ⟨errorNumber number, reason⟩

/-- What the system tells of a file that cannot be read. -/
def ofError (e : IO.Error) : SystemFault :=
  match e with
  | .noFileOrDirectory _ number reason => systemFault number reason
  | .inappropriateType _ number reason => systemFault number reason
  | .permissionDenied _ number reason => systemFault number reason
  | .invalidArgument _ number reason => systemFault number reason
  | e => ⟨5, toString e⟩

def fileContents (name : String) : IO (Except SystemFault (List UInt8)) := do
  try
    return .ok (← IO.FS.readBinFile name).toList
  catch e =>
    return .error (ofError e)

/-- The names of files in an argument: the argument, and what follows each of its
equals signs. -/
def namesIn (argument : String) : List String :=
  let cs := argument.toList
  argument :: (List.range cs.length).filterMap fun i =>
    if cs[i]? = some '=' then some (String.ofList (cs.drop (i + 1))) else none

/-- What is read, or may not be read, is taken to be a regular file. -/
def isRegular : Except SystemFault (List UInt8) → Bool
  | .ok _ => true
  | .error fault => fault.number == SystemFault.permissionDenied.number

/-- A file system that knows the files that were read, and no others. -/
def known (directory : String)
    (files : List (String × Except SystemFault (List UInt8))) : FileSystem where
  directory := directory
  contents := fun name => (files.lookup name).getD (.error .notFound)
  regular := fun name => (files.lookup name).any isRegular

def readAll (names : List String) :
    IO (List (String × Except SystemFault (List UInt8))) :=
  names.mapM fun name => do return (name, ← fileContents name)

/-- The paths of extensions that arguments lead to. -/
def extensionPaths (fs : FileSystem) (arguments : List String) : List String :=
  match CommandLine.Arguments.parse arguments with
  | .error _ => []
  | .ok a => (Extension.gather fs (CommandLine.givenPaths (a.valuesOf .extension))).toOption.getD []

def builtIn (path : String) : Extension :=
  if String.ofList (Path.stem path.toList) = "stats" then { hooks := [.statistics] }
  else
    let reason := "only the statistics extension is built in"
    { creationError := some (.ordinary reason), importError := some reason }

def respond : CommandLine.Answer → IO UInt32
  | .finished code out err => do
      IO.print out
      IO.eprint err
      return UInt32.ofNat code
  | .stopped reason => do
      IO.eprintln "usage: stencil [options] [program]"
      return UInt32.ofNat reason.code
  | .crashed crash => do
      IO.eprintln crash.message
      return 1

end Shell
end Stencil

open Stencil in
def main (arguments : List String) : IO UInt32 := do
  let directory := toString (← IO.currentDir)
  let named ← Shell.readAll (arguments.flatMap Shell.namesIn)
  let paths := Shell.extensionPaths (Shell.known directory named) arguments
  let files := named ++ (← Shell.readAll paths)
  Shell.respond (CommandLine.run (Shell.known directory files) Shell.builtIn arguments)
