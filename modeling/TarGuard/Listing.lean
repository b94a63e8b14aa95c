import TarGuard.Input.Open
import TarGuard.Input.Record
import TarGuard.Limits

namespace TarGuard.Listing

def header (limits : Limits) (count : UInt64) (b : Block) : EStateM ExtractError Input Header := do
  let h ← require <|
    if count ≥ limits.files then .error .archiveTooLarge
    else Header.decode b limits.componentLength
  Input.skipPayload h
  return h

theorem keeps_header (limits : Limits) (count : UInt64) (b : Block) :
    Keeps Input.NotLonger (header limits count b) :=
  Keeps.bind (Keeps.require _) fun _ => Keeps.bind (Input.keeps_skipPayload _) fun _ =>
    Keeps.pure _

def headers (limits : Limits) (count : UInt64) (s : Input) : Except ExtractError (List Header) :=
  match _h₁ : Input.readRecord s with
  | .error e _ => .error e
  | .ok none _ => .ok []
  | .ok (some b) t =>
    match _h₂ : header limits count b t with
    | .error e _ => .error e
    | .ok h u => (headers limits (count + 1) u).map (h :: ·)
termination_by s.remaining.length
decreasing_by
  have h₁ := (Input.sublist_readRecord _h₁).length_le
  have h₂ := (keeps_header limits count b).of_ok _h₂
  simp only [List.length_append, b.size_eq, Input.NotLonger] at *
  omega

def ofFile (fs : FileSystem) (archive : Path) (limits : Limits)
    (decoder : Input.Decoder := Input.unpack) : Except ExtractError (List Header) := do
  headers limits 0 (← Input.openFile fs archive decoder)

end TarGuard.Listing
