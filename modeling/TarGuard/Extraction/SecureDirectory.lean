import TarGuard.Error
import TarGuard.FileSystem.Call

namespace TarGuard.SecureDirectory

def mode : UInt32 := 0o700

def level (p : Path) : EStateM ExtractError FileSystem Unit := do
  match (← get).makeDirectory p mode with
  | .ok fs => set fs
  | .error .alreadyExists =>
    match (← get).linkStatus p with
    | .ok (.directory _) => pure ()
    | .ok _ => throw .linkDetected
    | .error _ => throw .directoryFailed
  | .error _ => throw .directoryFailed

def levels (root dir : Path) : List Path :=
  ((dir :: dir.parents).takeWhile fun p => ¬ p.Alike root).reverse

def make (root dir : Path) : EStateM ExtractError FileSystem Unit :=
  if dir.StartsWith root then
    (levels root dir).forM level
  else
    throw .pathTraversal

def makeParent (root file : Path) : EStateM ExtractError FileSystem Unit :=
  match file.parent? with
  | some dir => make root dir
  | none => pure ()

end TarGuard.SecureDirectory
