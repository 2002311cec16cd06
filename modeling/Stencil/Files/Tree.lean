import Stencil.Files.FileSystem
import Stencil.Files.Path

/-!
# File trees

A file tree in memory.  A directory exists if it was made or if something lies
in it.  Names are looked up one component at a time: what a double dot leads to
has to exist, and nothing lies in a file.  A component has at most 255 bytes, and
a name fewer than 4096.
-/

namespace Stencil

structure Tree where
  files : List (List (List Char) × List UInt8)
  directories : List (List (List Char))

namespace Tree

def hasDirectory (t : Tree) (path : List (List Char)) : Bool :=
  path.isEmpty || t.directories.any path.isPrefixOf ||
    t.files.any fun (file, _) => path.isPrefixOf file && path.length < file.length

def byteLength (cs : List Char) : Nat :=
  cs.foldr (fun c length => c.utf8Size + length) 0

/-- What a name leads to from the directory `place`. -/
def walk (t : Tree) (place : List (List Char)) :
    List (List Char) → Except SystemFault (List UInt8)
  | [] => .error .isDirectory
  | component :: rest =>
      if component = [] ∨ component = ['.'] then walk t place rest
      else if component = Path.parent then walk t place.dropLast rest
      else if byteLength component > 255 then .error .nameTooLong
      else
        let here := place ++ [component]
        match t.files.lookup here with
        | some bytes => if rest.isEmpty then .ok bytes else .error .notDirectory
        | none => if t.hasDirectory here then walk t here rest else .error .notFound

/-- The components of a normal absolute path. -/
def components (path : List Char) : List (List Char) :=
  (Path.split (Path.normalize path)).filter fun component => !component.isEmpty

def lookup (t : Tree) (directory name : List Char) : Except SystemFault (List UInt8) :=
  if name = [] then .error .notFound
  else if byteLength name ≥ 4096 then .error .nameTooLong
  else
    let start := if name.head? = some '/' then [] else components directory
    walk t start (Path.split name)

/-- A tree of files named relative to a directory, which exists. -/
def ofFiles (directory : String) (files : List (String × List UInt8)) : Tree where
  files := files.map fun (name, bytes) =>
    (components (Path.absolute directory.toList name.toList), bytes)
  directories := [components directory.toList]

/-- A tree as seen from one of its directories. -/
def toFileSystem (t : Tree) (directory : String) : FileSystem where
  directory := directory
  contents := fun name => t.lookup directory.toList name.toList

end Tree

end Stencil
