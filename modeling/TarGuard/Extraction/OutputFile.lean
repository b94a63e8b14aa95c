import TarGuard.Error
import TarGuard.FileSystem.Call

namespace TarGuard

structure OutputFile where
  path : Path
  location : Location

namespace OutputFile

-- A call to the system that does not succeed. Of what a call was to write, the file has the bytes
-- before `after` by then, so that a call with no more bytes than these is spared.
structure Failure where
  noSpace : Bool
  after : Nat := 0
  deriving DecidableEq, Repr

def Failure.error (failure : Failure) : ExtractError :=
  if failure.noSpace then .diskFull else .writeFailed

def mode : UInt32 := 0o600

-- Nothing may exist under the name; a link is told apart from the rest.
def create (failure? : Option Failure) (p : Path) : EStateM ExtractError FileSystem OutputFile := do
  match (← get).createFile p mode with
  | .ok (loc, fs) =>
    match failure? with
    | some failure => throw failure.error
    | none =>
      set fs
      return ⟨p, loc⟩
  | .error .tooManyLinks => throw .linkDetected
  | .error .alreadyExists =>
    match (← get).linkStatus p with
    | .ok (.link _) => throw .linkDetected
    | _ => throw .writeFailed
  | .error _ => throw .writeFailed

def write (failure? : Option Failure) (f : OutputFile) (bytes : List UInt8) :
    EStateM ExtractError FileSystem Unit :=
  match failure?.filter (·.after < bytes.length) with
  | some failure => do
    modify (·.append f.location (bytes.take failure.after))
    throw failure.error
  | none => modify (·.append f.location bytes)

def discard (f : OutputFile) (fs : FileSystem) : FileSystem :=
  match fs.unlink f.path with
  | .ok fs => fs
  | .error _ => fs

end OutputFile
end TarGuard
