import Stencil.Text.Lines
import Stencil.Text.Utf8

/-!
# File systems

What a program sees of a file system: its working directory, for each name the
bytes that reading gives or the reason why there are none, and which names are
those of regular files.  A regular file need not be readable.  Text is read as
UTF-8, and its line ends are made line feeds.
-/

namespace Stencil

/-- A failure that the system reports by number. -/
structure SystemFault where
  number : Nat
  reason : String
  deriving DecidableEq

inductive ReadFault where
  | system (fault : SystemFault) (name : String)
  | nullInName
  | encoding (fault : Utf8Fault)
  deriving DecidableEq

structure FileSystem where
  directory : String
  contents : String → Except SystemFault (List UInt8)
  regular : String → Bool := fun name => (contents name).toBool

namespace SystemFault

def notFound : SystemFault := ⟨2, "No such file or directory"⟩

def notDirectory : SystemFault := ⟨20, "Not a directory"⟩

def isDirectory : SystemFault := ⟨21, "Is a directory"⟩

def nameTooLong : SystemFault := ⟨36, "File name too long"⟩

def permissionDenied : SystemFault := ⟨13, "Permission denied"⟩

end SystemFault

namespace ReadFault

def message : ReadFault → String
  | system fault name =>
      "[Errno " ++ toString fault.number ++ "] " ++ fault.reason ++ ": " ++ Text.literal name
  | nullInName => "embedded null byte"
  | encoding fault => fault.message

end ReadFault

namespace FileSystem

/-- No file has a name with a null character. -/
def readBytes (fs : FileSystem) (name : String) : Except ReadFault (List UInt8) :=
  if name.toList.contains '\x00' then .error .nullInName
  else (fs.contents name).mapError (.system · name)

def isFile (fs : FileSystem) (name : String) : Bool :=
  !name.toList.contains '\x00' && fs.regular name

def readText (fs : FileSystem) (name : String) : Except ReadFault String := do
  let bytes ← fs.readBytes name
  match Utf8.decode bytes with
  | .ok cs => .ok (String.ofList (Text.unifyLineEnds cs))
  | .error fault => .error (.encoding fault)

end FileSystem

end Stencil
