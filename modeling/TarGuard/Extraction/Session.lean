import TarGuard.Effect
import TarGuard.Extraction.OutputFile
import TarGuard.Input.Record
import TarGuard.Limits

namespace TarGuard

@[ext]
structure Summary where
  filesWritten : UInt64 := 0
  directoriesCreated : UInt64 := 0
  entriesSkipped : UInt64 := 0
  bytesExtracted : UInt64 := 0
  deriving DecidableEq, Repr

-- `seen` counts the records that were looked at.
@[ext]
structure Session where
  files : FileSystem
  input : Input
  seen : UInt64 := 0
  summary : Summary := {}

-- What an extraction is subject to. Once `cancelAfter` bytes were delivered, it is to stop, and
-- `failure?` says how the system fails a file that is made or written to at a point of the stream.
structure Extractor where
  limits : Limits := {}
  cancelAfter : Option Nat := none
  failure? : Nat → Option OutputFile.Failure := fun _ => none

def Limits.left (l : Limits) (used : UInt64) : UInt64 :=
  if used ≤ l.totalSize then l.totalSize - used else 0

def Limits.check (l : Limits) (seen used size : UInt64) : Except ExtractError Unit :=
  if seen > l.files then .error .archiveTooLarge
  else if size > l.fileSize then .error .fileTooLarge
  else if size > l.left used then .error .archiveTooLarge
  else .ok ()

abbrev Extraction := EStateM ExtractError Session

namespace Extraction

def onFiles (x : EStateM ExtractError FileSystem α) : Extraction α := fun s =>
  match x s.files with
  | .ok a fs => .ok a { s with files := fs }
  | .error e fs => .error e { s with files := fs }

def onInput (x : EStateM ExtractError Input α) : Extraction α := fun s =>
  match x s.input with
  | .ok a input => .ok a { s with input := input }
  | .error e input => .error e { s with input := input }

def count (f : Summary → Summary) : Extraction Unit :=
  modify fun s => { s with summary := f s.summary }

end Extraction

namespace Extractor

open Extraction

def checkCancelled (x : Extractor) : Extraction Unit := do
  if x.cancelAfter.any (· ≤ (← get).input.delivered) then
    throw .interrupted

def onOutput (x : Extractor)
    (call : Option OutputFile.Failure → EStateM ExtractError FileSystem α) : Extraction α := do
  onFiles (call (x.failure? (← get).input.delivered))

def enforceLimits (x : Extractor) (size : UInt64) : Extraction Unit := do
  modify fun s => { s with seen := s.seen + 1 }
  let s ← get
  require (x.limits.check s.seen s.summary.bytesExtracted size)

end Extractor
end TarGuard
