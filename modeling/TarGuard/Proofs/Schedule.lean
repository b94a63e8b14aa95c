import TarGuard.Proofs.Agreement
import TarGuard.Proofs.Extract

namespace TarGuard

open Extraction

abbrev Session.position (s : Session) : Nat :=
  s.input.delivered

structure Session.AgreesUpTo (n : Nat) (s t : Session) : Prop where
  eq    : t = { s with input := t.input }
  input : s.input.AgreesUpTo n t.input

namespace Session

variable {n : Nat} {s t : Session}

theorem AgreesUpTo.onFiles (h : s.AgreesUpTo n t) (fs : FileSystem) :
    { s with files := fs }.AgreesUpTo n { t with files := fs } where
  eq := by rw [h.eq]
  input := h.input

theorem AgreesUpTo.onInput {input input' : Input} (h : s.AgreesUpTo n t)
    (hi : input.AgreesUpTo n input') :
    { s with input := input }.AgreesUpTo n { t with input := input' } where
  eq := by rw [h.eq]
  input := hi

theorem AgreesUpTo.files (h : s.AgreesUpTo n t) : t.files = s.files := by
  rw [h.eq]

end Session

abbrev Extraction.IsLocal (x : Extraction α) : Prop :=
  Local Session.position Session.AgreesUpTo x

namespace Extraction

theorem local_onFiles (x : EStateM ExtractError FileSystem α) : IsLocal (onFiles x) where
  forward s := by
    unfold finalState onFiles
    cases x s.files with
    | ok | error => exact Nat.le_refl _
  alike {n s t} h _ := by
    unfold onFiles
    rw [h.files]
    cases x s.files with
    | ok a fs => exact .ok (h.onFiles fs)
    | error e fs => exact .error (h.onFiles fs)

theorem local_onInput {x : EStateM ExtractError Input α}
    (hx : Local Input.delivered Input.AgreesUpTo x) : IsLocal (onInput x) where
  forward s := by
    have := hx.forward s.input
    unfold finalState at *
    unfold onInput
    cases hs : x s.input with
    | ok | error =>
      rw [hs] at this
      exact this
  alike {n s t} h hn := by
    have ha := hx.alike h.input (n := n)
    unfold finalState at *
    unfold onInput at *
    generalize x s.input = r at *
    generalize x t.input = r' at *
    cases r with
    | ok a u =>
      cases ha hn with
      | ok hu => exact .ok (h.onInput hu)
    | error e u =>
      cases ha hn with
      | error hu => exact .error (h.onInput hu)

theorem local_count (f : Summary → Summary) : IsLocal (count f) :=
  Local.modify (fun _ => Nat.le_refl _) fun h => ⟨by rw [h.eq], h.input⟩

end Extraction

namespace Extractor

variable {x : Extractor}

theorem local_checkCancelled : IsLocal x.checkCancelled := by
  unfold checkCancelled
  apply Local.get_bind
  case hf =>
    intro s
    split
    · exact Local.throw _
    · exact Local.pure _
  case he =>
    intro n s t h
    rw [h.input.delivered]

theorem local_enforceLimits (size : UInt64) : IsLocal (x.enforceLimits size) := by
  unfold enforceLimits
  refine Local.bind (Local.modify (fun _ => Nat.le_refl _) ?_) fun _ => ?_
  · exact fun h => ⟨by rw [h.eq], h.input⟩
  · refine Local.get_bind (fun _ => Local.require _) fun h => ?_
    rw [h.eq]

theorem local_onOutput (call : Option OutputFile.Failure → EStateM ExtractError FileSystem α) :
    IsLocal (x.onOutput call) :=
  Local.get_bind (fun _ => local_onFiles _) fun h => by rw [h.input.delivered]

theorem local_copyPayload (file : OutputFile) (left : Nat) : IsLocal (x.copyPayload file left) := by
  fun_induction copyPayload x file left with
  | case1 => exact Local.pure _
  | case2 left hl ih =>
    have hpos : 0 < min left chunkSize := by
      rw [chunkSize]
      omega
    exact local_checkCancelled.bind fun _ =>
      (local_onInput (Input.local_readChunk hpos)).bind fun _ =>
      (local_onOutput _).bind fun _ => ih

theorem local_fillFile (file : OutputFile) (size : UInt64) : IsLocal (x.fillFile file size) :=
  (local_copyPayload file _).bind fun _ => local_onInput (Input.local_skip _)

theorem local_writeFile (root target : Path) (size : UInt64) :
    IsLocal (x.writeFile root target size) :=
  (local_onFiles _).bind fun _ => (local_onOutput _).bind fun file =>
    (local_fillFile file size).withCleanUp (fun _ => Nat.le_refl _) fun h => by
      rw [h.files]
      exact h.onFiles _

theorem local_dispatch (root target : Path) (h : Header) : IsLocal (x.dispatch root target h) := by
  have hskip := local_onInput (Input.local_skipPayload h)
  unfold dispatch
  split
  · exact (local_onFiles _).bind fun _ => hskip.bind fun _ => local_count _
  · exact (local_writeFile root target h.size).bind fun _ => local_count _
  · exact Local.throw _
  · exact Local.throw _
  · exact hskip.bind fun _ => local_count _

theorem local_entry (root : Path) (h : Header) : IsLocal (x.entry root h) :=
  (local_enforceLimits h.size).bind fun _ => (Local.require _).bind fun target =>
    (local_dispatch root target h).bind fun _ => local_count _

theorem local_record (root : Path) : IsLocal (x.record root) :=
  local_checkCancelled.bind fun _ => (local_onInput Input.local_readRecord).bind fun o =>
    match o with
    | none => Local.pure false
    | some _ => (Local.require _).bind fun h => (local_entry root h).bind fun _ => Local.pure true

theorem onward_records (root : Path) : Keeps (Onward Session.position) (x.records root) := by
  intro s
  unfold finalState
  fun_induction records x root s with
  | case1 s t h ih => exact Trans.trans ((local_record root).forward.of_ok h) ih
  | case2 s t h => exact (local_record root).forward.of_ok h
  | case3 s e t h => exact (local_record root).forward.of_error h

theorem local_records (root : Path) : IsLocal (x.records root) where
  forward := onward_records root
  alike {n s t} h hn := by
    unfold finalState at hn
    fun_induction records x root s generalizing t with
    | case1 s u hs ih =>
      have hf := onward_records (x := x) root u
      obtain ⟨v, ht, ha⟩ := (local_record root).of_ok h hs (Nat.le_trans hf hn)
      rw [records_of_next ht]
      exact ih ha hn
    | case2 s u hs =>
      obtain ⟨v, ht, ha⟩ := (local_record root).of_ok h hs hn
      rw [records_of_end ht]
      exact .ok ha
    | case3 s e u hs =>
      obtain ⟨v, ht, ha⟩ := (local_record root).of_error h hs hn
      rw [records_of_error ht]
      exact .error ha

def session (x : Extractor) (destination : Path) : Extraction Unit := do
  let s ← get
  let root ← require (Destination.root s.files destination)
  x.runAt root

theorem local_session (destination : Path) : IsLocal (x.session destination) := by
  apply Local.get_bind
  case hf =>
    exact fun _ => (Local.require _).bind fun root =>
      (local_onFiles _).bind fun _ => local_records root
  case he => exact fun h => by rw [h.files]

theorem run_eq (x : Extractor) (input : Input) (destination : Path) (fs : FileSystem) :
    x.run input destination fs =
      match x.session destination { files := fs, input := input } with
      | .ok () s => .ok s.summary s.files
      | .error e s => .error e s.files := by
  simp only [run, session, bind, EStateM.bind, MonadState.get, getThe, MonadStateOf.get, get_apply]
  cases Destination.root fs destination with
  | error e => rfl
  | ok root => rfl

-- How many bytes an extraction takes from its stream before it ends or fails.
def taken (x : Extractor) (source : Source) (destination : Path) (fs : FileSystem) : Nat :=
  match source.open fs with
  | .ok input =>
    (finalState (x.session destination) { files := fs, input := input }).position - input.delivered
  | .error _ => 0

section Agreement

variable {input input' : Input} {n : Nat}

theorem session_alike (x : Extractor) (destination : Path) (fs : FileSystem)
    (h : input.AgreesUpTo n input')
    (hn : (finalState (x.session destination) { files := fs, input := input }).position ≤ n) :
    EndAlike (Session.AgreesUpTo n) (x.session destination { files := fs, input := input })
      (x.session destination { files := fs, input := input' }) :=
  (local_session destination).alike ⟨rfl, h⟩ hn

theorem run_congr (x : Extractor) (destination : Path) (fs : FileSystem)
    (h : input.AgreesUpTo n input')
    (hn : (finalState (x.session destination) { files := fs, input := input }).position ≤ n) :
    x.run input destination fs = x.run input' destination fs := by
  have ha := x.session_alike destination fs h hn
  rw [run_eq, run_eq]
  generalize x.session destination { files := fs, input := input } = r at ha
  generalize x.session destination { files := fs, input := input' } = r' at ha
  cases ha with
  | ok ha | error ha => rw [ha.eq]

theorem position_congr (x : Extractor) (destination : Path) (fs : FileSystem)
    (h : input.AgreesUpTo n input')
    (hn : (finalState (x.session destination) { files := fs, input := input }).position ≤ n) :
    (finalState (x.session destination) { files := fs, input := input }).position =
      (finalState (x.session destination) { files := fs, input := input' }).position := by
  have ha := x.session_alike destination fs h hn
  unfold finalState
  generalize x.session destination { files := fs, input := input } = r at ha
  generalize x.session destination { files := fs, input := input' } = r' at ha
  cases ha with
  | ok ha | error ha => exact ha.input.delivered

end Agreement

theorem extract_of_schedule (x : Extractor) (bytes : List UInt8) (ending : Ending)
    (schedule schedule' : Schedule) (destination : Path) (fs : FileSystem) :
    x.extract (.reader bytes ending schedule) destination fs =
      x.extract (.reader bytes ending schedule') destination fs ∧
    x.taken (.reader bytes ending schedule) destination fs =
      x.taken (.reader bytes ending schedule') destination fs := by
  have h := Input.AgreesUpTo.of_schedule bytes ending schedule schedule'
  refine ⟨x.run_congr destination fs (h _) (Nat.le_refl _), ?_⟩
  exact congrArg (· - 0) (x.position_congr destination fs (h _) (Nat.le_refl _))

end Extractor
end TarGuard
