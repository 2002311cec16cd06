import Stencil.Files.FileSystem
import Stencil.Files.Path
import Stencil.Text.Blank

/-!
# Gathering extensions

An extension is given by its path, or by the path of a list file, whose lines
are paths relative to the file itself.  In a line, a hash sign begins a comment.
Gathered paths are absolute; a list file named in a list file is not read.
-/

namespace Stencil

/-- Why extensions cannot be gathered: the system does not give a list file, or
its content is no text. -/
inductive GatherFault where
  | unreadableList (path : String) (fault : SystemFault)
  | notText (fault : ReadFault)
  deriving DecidableEq

namespace GatherFault

def ofReadFault (path : String) : ReadFault → GatherFault
  | .system fault _ => unreadableList path fault
  | fault => notText fault

end GatherFault

namespace ListFile

def extension : List Char := ['.', 'p', 'i', 'p', 'a', 'x']

/-- Whether a path names a list file; the case of its extension does not matter. -/
def isListFile (path : String) : Bool :=
  extension.isSuffixOf (path.toList.map Char.toLower)

def endsLine (c : Char) : Bool :=
  c ∈ ['\n', '\r', '\x0b', '\x0c', '\x1c', '\x1d', '\x1e', '\u0085', '\u2028', '\u2029']

/-- The path in a line, or nothing in a line without one. -/
def entry (line : List Char) : List Char :=
  Text.strip (line.takeWhile (· != '#'))

def entries (text : String) : List (List Char) :=
  ((Text.linesBy endsLine text.toList).map entry).filter fun e => !e.isEmpty

/-- The paths that the file at `path` lists. -/
def paths (fs : FileSystem) (path : String) : Except ReadFault (List String) := do
  let text ← fs.readText path
  let place := Path.directoryOf (Path.absolute fs.directory.toList path.toList)
  return (entries text).map fun e => String.ofList (Path.absolute place e)

end ListFile

namespace Extension

/-- The extension paths that one argument stands for. -/
def expand (fs : FileSystem) (path : String) : Except GatherFault (List String) :=
  if ListFile.isListFile path then
    (ListFile.paths fs path).mapError (GatherFault.ofReadFault path)
  else .ok [String.ofList (Path.absolute fs.directory.toList path.toList)]

def gather (fs : FileSystem) : List String → Except GatherFault (List String)
  | [] => .ok []
  | path :: rest => do
      let first ← expand fs path
      let others ← gather fs rest
      return first ++ others

end Extension

end Stencil
