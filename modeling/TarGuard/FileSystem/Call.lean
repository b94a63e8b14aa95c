import TarGuard.FileSystem.Lookup
import TarGuard.Path.Lexical

namespace TarGuard.FileSystem

def existing (fs : FileSystem) (loc : Location) : Except SystemError Node :=
  match fs.node? loc with
  | some node => .ok node
  | none => .error .notFound

def status (fs : FileSystem) (p : Path) : Except SystemError Node :=
  fs.locate .status p >>= fs.existing

def linkStatus (fs : FileSystem) (p : Path) : Except SystemError Node :=
  fs.locate .linkStatus p >>= fs.existing

def isDirectoryAt (fs : FileSystem) (p : Path) : Bool :=
  match fs.status p with
  | .ok node => node.isDirectory
  | .error _ => false

def read (fs : FileSystem) (p : Path) : Except SystemError (List UInt8) := do
  match ← fs.status p with
  | .file f => return f.content
  | _ => throw .isDirectory

-- Whatever exists under the name is in the way, a link that leads nowhere included.
def makeDirectory (fs : FileSystem) (p : Path) (mode : UInt32) : Except SystemError FileSystem := do
  let loc ← fs.locateNewDirectory p
  match fs.node? loc with
  | some _ => throw .alreadyExists
  | none => return fs.put loc (.directory mode)

def createFile (fs : FileSystem) (p : Path) (mode : UInt32) :
    Except SystemError (Location × FileSystem) := do
  let loc ← fs.locate .createNew p
  match fs.node? loc with
  | some _ => throw .alreadyExists
  | none => return (loc, fs.put loc (.file ⟨[], mode, fs.clock⟩))

def append (fs : FileSystem) (loc : Location) (bytes : List UInt8) : FileSystem :=
  match fs.node? loc with
  | some (.file f) =>
    fs.put loc (.file { f with content := f.content ++ bytes, modified := fs.clock })
  | _ => fs

def defaultFileMode : UInt32 := 0o644

def defaultDirectoryMode : UInt32 := 0o755

def write (fs : FileSystem) (p : Path) (content : List UInt8) : Except SystemError FileSystem := do
  let loc ← fs.locate .write p
  match fs.node? loc with
  | some (.file f) =>
    return fs.put loc (.file { f with content := content, modified := fs.clock })
  | some _ => throw .isDirectory
  | none =>
    -- Only a name that comes from a link can be none for a file.
    let node := .file ⟨content, defaultFileMode, fs.clock⟩
    if fs.Accepts loc node then return fs.put loc node else throw .notFound

def unlink (fs : FileSystem) (p : Path) : Except SystemError FileSystem := do
  let loc ← fs.locate .linkStatus p
  match fs.node? loc with
  | some (.directory _) => throw .isDirectory
  | some _ => return fs.remove loc
  | none => throw .notFound

def changeMode (fs : FileSystem) (p : Path) (mode : UInt32) : Except SystemError FileSystem := do
  let loc ← fs.locate .status p
  match fs.node? loc with
  | some (.file f) => return fs.put loc (.file { f with mode := mode })
  | some (.directory _) => return fs.put loc (.directory mode)
  | some (.link _) => return fs
  | none => throw .notFound

def absolute (fs : FileSystem) (p : Path) : Option Path :=
  p.absoluteIn (pathTo fs.current)

end TarGuard.FileSystem
