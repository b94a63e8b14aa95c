import TarGuard.EntryPath
import TarGuard.FileSystem.Call

namespace TarGuard.Executable

def ownerBits : UInt32 := 0o700

def mark (limits : Limits) (root : Path) (relative : String) (fs : FileSystem) :
    Except ExtractError (Path × FileSystem) := do
  let target ← EntryPath.resolve limits root relative
  match fs.linkStatus target with
  | .ok (.file f) =>
    match fs.changeMode target (f.mode ||| ownerBits) with
    | .ok fs => return (target, fs)
    | .error _ => throw .writeFailed
  | .ok (.link _) => throw .linkDetected
  | _ => throw .openFailed

end TarGuard.Executable
