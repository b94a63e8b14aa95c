import TarGuard.FileSystem.Call

namespace TarGuard.FileSystem

def haveDirectory (p : Path) : EStateM SystemError FileSystem Unit := do
  match (← get).makeDirectory p defaultDirectoryMode with
  | .ok fs => set fs
  | .error e => unless (← get).isDirectoryAt p do throw e

def haveDirectories : List Path → EStateM SystemError FileSystem Unit
  | [] => throw .notFound
  | p :: above => do
    if p = .empty then
      return
    match (← get).makeDirectory p defaultDirectoryMode with
    | .error .notFound => do
      haveDirectories above
      haveDirectory p
    | _ => haveDirectory p

-- Makes a directory and all that is missing above it. What was made stays when a step fails.
def makeDirectories (p : Path) : EStateM SystemError FileSystem Unit :=
  haveDirectories (p :: p.parents)

end TarGuard.FileSystem
