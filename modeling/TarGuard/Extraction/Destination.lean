import TarGuard.Error
import TarGuard.FileSystem.Directories

namespace TarGuard.Destination

-- The absolute path of the destination, with `..` resolved by the text alone.
def root (fs : FileSystem) (destination : Path) : Except ExtractError Path :=
  match fs.absolute destination with
  | some p => .ok p.normalize
  | none => .error .directoryFailed

-- Makes the root and what is missing above it. The directories above it belong to the caller, so
-- links among them are followed.
def prepare (root : Path) : EStateM ExtractError FileSystem Unit := do
  (FileSystem.makeDirectories root).adaptExcept fun _ => ExtractError.directoryFailed
  unless (← get).isDirectoryAt root do
    throw .directoryFailed

end TarGuard.Destination
