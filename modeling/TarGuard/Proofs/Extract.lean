import TarGuard.Proofs.Destination
import TarGuard.Proofs.Records

namespace TarGuard

open FileSystem

inductive Source
  | reader (bytes : List UInt8) (ending : Ending) (schedule : Schedule)
  | file (archive : Path)

def Source.open (source : Source) (fs : FileSystem) : Except ExtractError Input :=
  match source with
  | reader bytes ending schedule =>
    .ok { remaining := bytes, ending := ending, schedule := schedule }
  | file archive => Input.openFile fs archive

namespace Extractor

def extract (x : Extractor) (source : Source) (destination : Path) :
    EStateM ExtractError FileSystem Summary :=
  match source with
  | .reader bytes ending schedule =>
    x.run { remaining := bytes, ending := ending, schedule := schedule } destination
  | .file archive => x.runFile archive destination

-- The first record is next: the archive is open, and the destination is there.
structure Begins (source : Source) (destination : Path) (fs : FileSystem) (names : List String)
    (base : Location) (s : Session) : Prop where
  opens    : source.open fs = .ok s.input
  root     : Destination.root fs destination = .ok (pathTo names)
  prepares : Destination.prepare (pathTo names) fs = .ok () s.files
  grows    : Grows (s.files.IsPart names) fs s.files
  leads    : s.files.Leads names base
  seen     : s.seen = 0
  summary  : s.summary = {}

structure Succeeds (x : Extractor) (source : Source) (destination : Path) (fs : FileSystem)
    (names : List String) (base : Location) (s u t : Session) : Prop where
  begins : Begins source destination fs names base s
  passes : ∃ n, x.Passes (pathTo names) n s u
  last   : x.record (pathTo names) u = .ok false t

inductive Fails (x : Extractor) (source : Source) (destination : Path) (fs : FileSystem) :
    ExtractError → FileSystem → Prop
  | opening {e} : source.open fs = .error e → Fails x source destination fs e fs
  | root {e input} : source.open fs = .ok input → Destination.root fs destination = .error e →
    Fails x source destination fs e fs
  | preparing {e fs' input names} : source.open fs = .ok input → AllOrdinary names →
    Destination.root fs destination = .ok (pathTo names) →
    Destination.prepare (pathTo names) fs = .error e fs' → Fails x source destination fs e fs'
  | record {e names base s n u t} : Begins source destination fs names base s →
    x.Passes (pathTo names) n s u → x.record (pathTo names) u = .error e t →
    Fails x source destination fs e t.files

variable {x : Extractor} {source : Source} {destination : Path} {fs : FileSystem}

theorem runAt_ends {input : Input} {names : List String} (ho : AllOrdinary names)
    (hs : source.open fs = .ok input) (hr : Destination.root fs destination = .ok (pathTo names)) :
    Ends (x.runAt (pathTo names)) { files := fs, input := input }
      (fun _ t => ∃ base s u, x.Succeeds source destination fs names base s u t)
      (fun e t => x.Fails source destination fs e t.files) := by
  have hp := Destination.prepare_ends fs ho
  have he := Ends.eq (Destination.prepare (pathTo names)) fs
  refine (Ends.onFiles (s := ⟨fs, input, 0, {}⟩) he).bind ?_ ?_
  · intro e t ⟨fs', h, ht⟩
    subst ht
    exact .preparing hs ho hr h
  · intro _ s ⟨fs', h, ht⟩
    subst ht
    have ⟨g, base, hl⟩ := hp.of_ok h
    have hb : Begins source destination fs names base ⟨fs', input, 0, {}⟩ :=
      ⟨hs, hr, h, g, hl, rfl, rfl⟩
    refine (records_ends x _ _).imp ?_ ?_
    · intro _ t ⟨n, u, hp, hu⟩
      exact ⟨base, _, u, hb, ⟨n, hp⟩, hu⟩
    · intro e t ⟨n, u, hp, hu⟩
      exact .record hb hp hu

theorem Begins.runAt_eq {names : List String} {base : Location} {s : Session}
    (h : Begins source destination fs names base s) :
    x.runAt (pathTo names) { files := fs, input := s.input } = x.records (pathTo names) s := by
  have hs : s = { files := s.files, input := s.input } := Session.ext rfl rfl h.seen h.summary
  rw [runAt, bind_of_ok (Extraction.onFiles_of_ok h.prepares), ← hs]

section Run

variable {input : Input} {root : Path} {e : ExtractError} {s : Session}

theorem run_of_root_error (h : Destination.root fs destination = .error e) :
    x.run input destination fs = .error e fs := by
  simp [run, h]

theorem run_of_error (h : Destination.root fs destination = .ok root)
    (hx : x.runAt root { files := fs, input := input } = .error e s) :
    x.run input destination fs = .error e s.files := by
  simp [run, h, hx]

theorem run_of_ok (h : Destination.root fs destination = .ok root)
    (hx : x.runAt root { files := fs, input := input } = .ok () s) :
    x.run input destination fs = .ok s.summary s.files := by
  simp [run, h, hx]

theorem run_ends (hs : source.open fs = .ok input) :
    Ends (x.run input destination) fs
      (fun summary fs' => ∃ names base s u t, x.Succeeds source destination fs names base s u t ∧
        summary = t.summary ∧ fs' = t.files)
      (fun e fs' => x.Fails source destination fs e fs') := by
  rw [Ends]
  cases hr : Destination.root fs destination with
  | error e =>
    rw [run_of_root_error hr]
    exact .root hs hr
  | ok root =>
    obtain ⟨names, ho, rfl⟩ := Destination.exists_root_eq_pathTo hr
    have h := runAt_ends (x := x) ho hs hr
    cases hx : x.runAt (pathTo names) { files := fs, input := input } with
    | ok a t =>
      obtain ⟨base, s, u, h⟩ := h.of_ok hx
      rw [run_of_ok hr hx]
      exact ⟨names, base, s, u, t, h, rfl, rfl⟩
    | error e t =>
      rw [run_of_error hr hx]
      exact h.of_error hx

end Run

theorem runFileWith_eq (x : Extractor) (decoder : Input.Decoder) (archive destination : Path)
    (fs : FileSystem) :
    x.runFileWith decoder archive destination fs =
      match Input.openFile fs archive decoder with
      | .ok input => x.run input destination fs
      | .error e => .error e fs := by
  simp only [runFileWith, require, bind, EStateM.bind, get, getThe, MonadStateOf.get, get_apply]
  cases Input.openFile fs archive decoder with
  | ok input => rfl
  | error e => rfl

theorem extract_of_open {input : Input} (hs : source.open fs = .ok input) :
    x.extract source destination fs = x.run input destination fs := by
  cases source with
  | reader =>
    cases hs
    rfl
  | file archive =>
    rw [Source.open] at hs
    rw [extract, runFile, runFileWith_eq, hs]

theorem Begins.of_prepare {input : Input} {fs' : FileSystem} {names : List String}
    {base : Location} (hs : source.open fs = .ok input)
    (hr : Destination.root fs destination = .ok (pathTo names))
    (hp : Destination.prepare (pathTo names) fs = .ok () fs') (hl : fs'.Leads names base) :
    Begins source destination fs names base { files := fs', input := input } where
  opens := hs
  root := hr
  prepares := hp
  grows := ((Destination.prepare_ends fs hl.ordinary).of_ok hp).1
  leads := hl
  seen := rfl
  summary := rfl

namespace Begins

variable {names : List String} {base : Location} {s t : Session} {e : ExtractError}
  (h : Begins source destination fs names base s)

include h

theorem reopen {source' : Source} {input : Input} (hs : source'.open fs = .ok input) :
    Begins source' destination fs names base { s with input := input } :=
  { h with opens := hs }

theorem extract_of_ok (ht : x.records (pathTo names) s = .ok () t) :
    x.extract source destination fs = .ok t.summary t.files := by
  rw [extract_of_open h.opens]
  exact run_of_ok h.root (h.runAt_eq.trans ht)

theorem extract_of_error (ht : x.records (pathTo names) s = .error e t) :
    x.extract source destination fs = .error e t.files := by
  rw [extract_of_open h.opens]
  exact run_of_error h.root (h.runAt_eq.trans ht)

end Begins

theorem extract_of_open_error {e : ExtractError} (hs : source.open fs = .error e) :
    x.extract source destination fs = .error e fs := by
  cases source with
  | reader => cases hs
  | file archive =>
    rw [Source.open] at hs
    rw [extract, runFile, runFileWith_eq, hs]

theorem extract_or_begins (source : Source) (destination : Path) (fs : FileSystem) :
    (∃ e fs', ∀ x : Extractor, x.extract source destination fs = .error e fs') ∨
      ∃ names base s, Begins source destination fs names base s := by
  cases ho : source.open fs with
  | error e => exact .inl ⟨e, fs, fun _ => extract_of_open_error ho⟩
  | ok input =>
    cases hr : Destination.root fs destination with
    | error e => exact .inl ⟨e, fs, fun _ => (extract_of_open ho).trans (run_of_root_error hr)⟩
    | ok root =>
      obtain ⟨names, hn, rfl⟩ := Destination.exists_root_eq_pathTo hr
      cases hp : Destination.prepare (pathTo names) fs with
      | error e fs' =>
        have hx (x : Extractor) : x.runAt (pathTo names) { files := fs, input := input } =
            .error e { files := fs', input := input } :=
          bind_of_error (Extraction.onFiles_of_error hp)
        exact .inl ⟨e, fs', fun x => (extract_of_open ho).trans (run_of_error hr (hx x))⟩
      | ok _ fs' =>
        have ⟨g, base, hl⟩ := (Destination.prepare_ends fs hn).of_ok hp
        exact .inr ⟨names, base, ⟨fs', input, 0, {}⟩, ho, hr, hp, g, hl, rfl, rfl⟩

theorem extract_ends (x : Extractor) (source : Source) (destination : Path) (fs : FileSystem) :
    Ends (x.extract source destination) fs
      (fun summary fs' => ∃ names base s u t, x.Succeeds source destination fs names base s u t ∧
        summary = t.summary ∧ fs' = t.files)
      (fun e fs' => x.Fails source destination fs e fs') := by
  cases source with
  | reader bytes ending schedule => exact run_ends rfl
  | file archive =>
    apply Ends.get_bind
    apply Ends.require_bind
    case hd => exact fun input hs => run_ends hs
    case hf => exact fun e hs => .opening hs

end Extractor
end TarGuard
