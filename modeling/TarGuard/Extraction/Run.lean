import TarGuard.EntryPath
import TarGuard.Extraction.Destination
import TarGuard.Extraction.OutputFile
import TarGuard.Extraction.SecureDirectory
import TarGuard.Extraction.Session
import TarGuard.Header.Codec
import TarGuard.Input.Open

namespace TarGuard.Extractor

open Extraction

def chunkSize : Nat := 16 * 1024

def copyPayload (x : Extractor) (file : OutputFile) (left : Nat) : Extraction Unit :=
  if left = 0 then
    pure ()
  else do
    x.checkCancelled
    let bytes ← onInput (Input.readChunk (min left chunkSize))
    x.onOutput (OutputFile.write · file bytes)
    copyPayload x file (left - chunkSize)
termination_by left
decreasing_by
  simp only [chunkSize]
  omega

def fillFile (x : Extractor) (file : OutputFile) (size : UInt64) : Extraction Unit := do
  copyPayload x file size.toNat
  onInput (Input.skip (padding size).toNat)

-- A file that is not complete, its padding included, does not stay.
def writeFile (x : Extractor) (root target : Path) (size : UInt64) : Extraction Unit := do
  onFiles (SecureDirectory.makeParent root target)
  let file ← x.onOutput (OutputFile.create · target)
  withCleanUp (fun s => { s with files := file.discard s.files }) (fillFile x file size)

def dispatch (x : Extractor) (root target : Path) (h : Header) : Extraction Unit :=
  match h.kind with
  | .directory => do
    onFiles (SecureDirectory.make root target)
    onInput (Input.skipPayload h)
    count fun s => { s with directoriesCreated := s.directoriesCreated + 1 }
  | .regular => do
    writeFile x root target h.size
    count fun s => { s with filesWritten := s.filesWritten + 1 }
  | .hardLink | .symbolicLink => throw .linkDetected
  | .other _ => do
    onInput (Input.skipPayload h)
    count fun s => { s with entriesSkipped := s.entriesSkipped + 1 }

def entry (x : Extractor) (root : Path) (h : Header) : Extraction Unit := do
  x.enforceLimits h.size
  let target ← require (EntryPath.resolve x.limits root h.fullPath)
  dispatch x root target h
  count fun s => { s with bytesExtracted := s.bytesExtracted + h.size }

def record (x : Extractor) (root : Path) : Extraction Bool := do
  x.checkCancelled
  match ← onInput Input.readRecord with
  | none => return false
  | some block => do
    x.entry root (← require (Header.decode block x.limits.componentLength))
    return true

def NotLonger (s t : Session) : Prop :=
  s.input.NotLonger t.input

namespace NotLonger

instance : Std.Refl NotLonger where
  refl _ := Nat.le_refl _

instance : Trans NotLonger NotLonger NotLonger where
  trans h₁ h₂ := Nat.le_trans h₂ h₁

theorem onFiles {x : EStateM ExtractError FileSystem α} : Keeps NotLonger (onFiles x) := by
  intro s
  unfold finalState Extraction.onFiles
  cases x s.files <;> exact Nat.le_refl _

theorem onInput {x : EStateM ExtractError Input α} (h : Keeps Input.NotLonger x) :
    Keeps NotLonger (onInput x) := by
  intro s
  have := h s.input
  unfold finalState at this
  unfold finalState Extraction.onInput
  cases hx : x s.input <;> simp only [hx] at this ⊢ <;> exact this

theorem onOutput {x : Extractor}
    {call : Option OutputFile.Failure → EStateM ExtractError FileSystem α} :
    Keeps NotLonger (x.onOutput call) :=
  Keeps.bind Keeps.get fun _ => onFiles

theorem count {f : Summary → Summary} : Keeps NotLonger (count f) :=
  Keeps.modify fun _ => Nat.le_refl _

theorem checkCancelled {x : Extractor} : Keeps NotLonger x.checkCancelled := by
  refine Keeps.bind Keeps.get fun _ => ?_
  split
  · exact Keeps.throw _
  · exact Keeps.pure _

theorem copyPayload {x : Extractor} {file : OutputFile} {left : Nat} :
    Keeps NotLonger (copyPayload x file left) := by
  fun_induction Extractor.copyPayload x file left with
  | case1 => exact Keeps.pure _
  | case2 left _ ih =>
    exact Keeps.bind checkCancelled fun _ =>
      Keeps.bind (onInput (Input.keeps_readChunk _)) fun _ =>
      Keeps.bind onOutput fun _ => ih

theorem writeFile {x : Extractor} {root target : Path} {size : UInt64} :
    Keeps NotLonger (x.writeFile root target size) :=
  Keeps.bind onFiles fun _ => Keeps.bind onOutput fun _ =>
    Keeps.withCleanUp (Keeps.bind copyPayload fun _ => onInput (Input.keeps_skip _))
      fun _ => Nat.le_refl _

theorem dispatch {x : Extractor} {root target : Path} {h : Header} :
    Keeps NotLonger (x.dispatch root target h) := by
  unfold Extractor.dispatch
  split
  · exact Keeps.bind onFiles fun _ =>
      Keeps.bind (onInput (Input.keeps_skipPayload _)) fun _ => count
  · exact Keeps.bind writeFile fun _ => count
  · exact Keeps.throw _
  · exact Keeps.throw _
  · exact Keeps.bind (onInput (Input.keeps_skipPayload _)) fun _ => count

theorem enforceLimits {x : Extractor} {size : UInt64} : Keeps NotLonger (x.enforceLimits size) :=
  Keeps.bind (Keeps.modify fun _ => Nat.le_refl _) fun _ =>
    Keeps.bind Keeps.get fun _ => Keeps.require _

theorem entry {x : Extractor} {root : Path} {h : Header} : Keeps NotLonger (x.entry root h) :=
  Keeps.bind enforceLimits fun _ => Keeps.bind (Keeps.require _) fun _ =>
    Keeps.bind dispatch fun _ => count

end NotLonger

theorem length_of_record {x : Extractor} {root : Path} {s t : Session}
    (h : x.record root s = .ok true t) :
    t.input.remaining.length < s.input.remaining.length := by
  simp only [record, bind, EStateM.bind] at h
  split at h
  case h_2 => cases h
  case h_1 u hc =>
  have h₁ := NotLonger.checkCancelled.of_ok hc
  split at h
  case h_2 => cases h
  case h_1 o v ho =>
  cases o with
  | none => cases h
  | some b =>
    have h₂ : Input.readRecord u.input = .ok (some b) v.input := by
      unfold onInput at ho
      split at ho <;> cases ho
      assumption
    have h₂ := (Input.sublist_readRecord h₂).length_le
    have h₃ : NotLonger v t :=
      (Keeps.bind (Keeps.require _) fun _ => Keeps.bind NotLonger.entry fun _ =>
        Keeps.pure true).of_ok h
    simp only [List.length_append, b.size_eq, NotLonger, Input.NotLonger] at *
    omega

def records (x : Extractor) (root : Path) : Extraction Unit := fun s =>
  match _h : x.record root s with
  | .ok true t => records x root t
  | .ok false t => .ok () t
  | .error e t => .error e t
termination_by s => s.input.remaining.length
decreasing_by exact length_of_record _h

def runAt (x : Extractor) (root : Path) : Extraction Unit := do
  onFiles (Destination.prepare root)
  x.records root

def run (x : Extractor) (input : Input) (destination : Path) :
    EStateM ExtractError FileSystem Summary := fun fs =>
  match Destination.root fs destination with
  | .error e => .error e fs
  | .ok root =>
    match x.runAt root { files := fs, input := input } with
    | .ok () s => .ok s.summary s.files
    | .error e s => .error e s.files

def runFileWith (x : Extractor) (decoder : Input.Decoder) (archive destination : Path) :
    EStateM ExtractError FileSystem Summary := do
  let input ← require (Input.openFile (← get) archive decoder)
  x.run input destination

def runFile (x : Extractor) (archive destination : Path) :
    EStateM ExtractError FileSystem Summary :=
  x.runFileWith Input.unpack archive destination

end TarGuard.Extractor
