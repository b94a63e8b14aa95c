import TarGuard.Proofs.Metadata
import TarGuard.Proofs.Stored

namespace TarGuard

open FileSystem

namespace Input

variable {s t u : Input} {m n : Nat}

theorem AgreesUpTo.mono (h : s.AgreesUpTo n t) (hm : m ≤ n) : s.AgreesUpTo m t where
  joints := h.joints
  delivered := h.delivered
  bytes := by
    have := congrArg (List.take (m - s.delivered)) h.bytes
    rwa [List.take_take, List.take_take, Nat.min_eq_left (by omega)] at this
  ending hle := h.ending (Nat.le_trans hle hm)

section Local

variable {x : EStateM ε Input α} {a : α} {e : ε} (hx : Local Input.delivered AgreesUpTo x)
  (h : ∀ n, s.AgreesUpTo n t)

include hx h

theorem ok_of_agrees (hs : x s = .ok a u) : ∃ v, x t = .ok a v ∧ ∀ n, u.AgreesUpTo n v := by
  have ⟨v, hv, _⟩ := hx.of_ok (h _) hs (Nat.le_refl _)
  refine ⟨v, hv, fun n => ?_⟩
  have ⟨w, hw, ha⟩ := hx.of_ok (h _) hs (Nat.le_max_right n _)
  cases hv.symm.trans hw
  exact ha.mono (Nat.le_max_left _ _)

theorem error_of_agrees (hs : x s = .error e u) : ∃ v, x t = .error e v := by
  have ⟨v, hv, _⟩ := hx.of_error (h _) hs (Nat.le_refl _)
  exact ⟨v, hv⟩

end Local

-- All that is known of a decoder: it delivers these bytes in order, in pieces of any size, and
-- then the stream ends, or no more can be read.
structure Decoder.Delivers (decoder : Decoder) (s : Input) (buffer : Nat) (content : List UInt8)
    (ending : Ending) : Prop where
  supplies  : (decoder s buffer).Supplies content ending
  delivered : (decoder s buffer).delivered = 0

-- What is in an archive with these bytes: the content, if they begin like a compressed file, and
-- otherwise themselves.
inductive Decoder.Finds (decoder : Decoder) (bytes : List UInt8) : List UInt8 → Ending → Prop
  | compressed {content ending} : Gzip.magic <+: bytes →
    decoder.Delivers (ofBytes bytes .finished []) bufferSize content ending →
    Finds decoder bytes content ending
  | plain : ¬ Gzip.magic <+: bytes → Finds decoder bytes bytes .finished

namespace Decoder

variable {decoder : Decoder} {bytes content : List UInt8} {ending : Ending}

theorem delivers_unpack_store {s : Input} (hs : s.Supplies (Gzip.store content) .finished)
    (buffer : Nat) : Delivers unpack s buffer content .finished := by
  have hu : s.unpack buffer = ofBytes content .finished [] := by
    rw [unpack, hs.remaining, hs.ending, Gzip.decode_store]
  refine ⟨?_, ?_⟩
  · rw [hu]
    exact ⟨rfl, rfl, rfl⟩
  · rw [hu]
    rfl

theorem finds_unpack_store (content : List UInt8) :
    Finds unpack (Gzip.store content) content .finished :=
  .compressed (Gzip.magic_prefix_store content) (delivers_unpack_store ⟨rfl, rfl, rfl⟩ bufferSize)

theorem Finds.openFile {fs : FileSystem} {archive : Path} (h : decoder.Finds bytes content ending)
    (hr : fs.read archive = .ok bytes) :
    ∃ s, openFile fs archive decoder = .ok s ∧ s.Supplies content ending ∧ s.delivered = 0 := by
  rw [openFile_eq hr]
  cases h with
  | compressed hm hd =>
    rw [if_pos hm]
    exact ⟨_, rfl, hd.supplies, hd.delivered⟩
  | plain hm =>
    rw [if_neg hm]
    exact ⟨_, rfl, ⟨rfl, rfl, rfl⟩, rfl⟩

end Decoder

end Input

namespace Listing

variable {limits : Limits} {count : UInt64} {s t : Input} {b : Block} {bytes content : List UInt8}
  {ending : Ending} {decoder : Input.Decoder} {fs : FileSystem} {archive : Path}

theorem local_header : Local Input.delivered Input.AgreesUpTo (header limits count b) :=
  (Local.require _).bind fun h => (Input.local_skipPayload h).bind fun _ => Local.pure h

theorem headers_congr (h : ∀ n, s.AgreesUpTo n t) :
    headers limits count s = headers limits count t := by
  have hrecord := Input.local_readRecord
  fun_induction headers limits count s generalizing t with
  | case1 count s e u hs =>
    have ⟨v, ht⟩ := Input.error_of_agrees hrecord h hs
    rw [headers_of_error ht]
  | case2 count s u hs =>
    have ⟨v, ht, _⟩ := Input.ok_of_agrees hrecord h hs
    rw [headers_of_end ht]
  | case3 count s b u hs e u' hu =>
    have ⟨v, ht, hv⟩ := Input.ok_of_agrees hrecord h hs
    have ⟨v', hv'⟩ := Input.error_of_agrees local_header hv hu
    rw [headers_of_refused ht hv']
  | case4 count s b u hs header u' hu ih =>
    have ⟨v, ht, hv⟩ := Input.ok_of_agrees hrecord h hs
    have ⟨v', hv', hagrees⟩ := Input.ok_of_agrees local_header hv hu
    rw [headers_of_header ht hv', ih hagrees]

theorem ofFile_of_finds (h : decoder.Finds bytes content ending) (hr : fs.read archive = .ok bytes)
    (schedule : Schedule) : ofFile fs archive limits decoder =
      headers limits 0 { remaining := content, ending := ending, schedule := schedule } := by
  obtain ⟨s, ho, hs, hd⟩ := h.openFile hr
  rw [ofFile, ho]
  exact headers_congr fun n => .of_supplies hs ⟨rfl, rfl, rfl⟩ hd n

end Listing

namespace Extractor

variable {x : Extractor} {destination archive : Path} {fs : FileSystem}
  {decoder : Input.Decoder} {bytes content : List UInt8} {ending : Ending}

theorem runFileWith_eq_extract (h : decoder.Finds bytes content ending)
    (hr : fs.read archive = .ok bytes) (x : Extractor) (destination : Path) (schedule : Schedule) :
    x.runFileWith decoder archive destination fs =
      x.extract (.reader content ending schedule) destination fs := by
  obtain ⟨input, ho, hs, hd⟩ := h.openFile hr
  rw [runFileWith_eq, ho]
  exact x.run_congr destination fs (.of_supplies hs ⟨rfl, rfl, rfl⟩ hd _) (Nat.le_refl _)

-- What is in a file is extracted in the same way as from any stream with these bytes. It is also
-- listed as if it stood in the file itself, unless that would be taken for compressed in turn.
theorem runFileWith_of_finds (h : decoder.Finds bytes content ending)
    (hr : fs.read archive = .ok bytes) :
    (∀ (x : Extractor) (destination : Path) (schedule : Schedule),
      x.runFileWith decoder archive destination fs =
        x.extract (.reader content ending schedule) destination fs) ∧
    (ending = .finished → (Gzip.magic <+: bytes → ¬ Gzip.magic <+: content) →
      ∀ (limits : Limits) (fs' : FileSystem) (archive' : Path), fs'.read archive' = .ok content →
        Listing.ofFile fs archive limits decoder = Listing.ofFile fs' archive' limits decoder) := by
  constructor
  case left => exact runFileWith_eq_extract h hr
  case right =>
    intro he hm limits fs' archive' hr'
    have hfinds : decoder.Finds content content ending := by
      cases h with
      | compressed hbytes => exact he ▸ .plain (hm hbytes)
      | plain hbytes => exact .plain hbytes
    rw [Listing.ofFile_of_finds h hr Input.plainSchedule,
      Listing.ofFile_of_finds hfinds hr' Input.plainSchedule]

end Extractor

theorem Extractor.runFileWith_stored_docs :
    let tar := Archive.write [Entry.docs, Entry.nested]
    let fs := OutputFile.holding (FileSystem.root 0) ["a.tar"] (Gzip.store tar)
    let fs' := OutputFile.holding (FileSystem.root 0) ["a.tar"] tar
    Extractor.runFile {} (pathTo ["a.tar"]) ⟨"out"⟩ fs =
      Extractor.extract {} (.reader tar .finished ⟨1, [3], by decide⟩) ⟨"out"⟩ fs ∧
    Listing.ofFile fs (pathTo ["a.tar"]) {} = Listing.ofFile fs' (pathTo ["a.tar"]) {} := by
  intro tar fs fs'
  have hr : fs.read (pathTo ["a.tar"]) = .ok (Gzip.store tar) := OutputFile.read_tar _
  have hplain : ¬ Gzip.magic <+: tar := by
    intro ⟨rest, hrest⟩
    have hname := Archive.head?_write fun e he => (Entry.storable_docs_nested e he).name
    exact hname (congrArg List.head? hrest.symm)
  have ⟨hrun, hlist⟩ := runFileWith_of_finds (Input.Decoder.finds_unpack_store tar) hr
  exact ⟨hrun {} _ _, hlist rfl (fun _ => hplain) {} _ _ (OutputFile.read_tar tar)⟩

end TarGuard
