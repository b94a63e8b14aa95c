import TarGuard.Proofs.Metadata

namespace TarGuard

open FileSystem Extraction

-- So many of these bytes are passed over as the payload of a record: all of it with its padding, or
-- all that is there. The error is what an extraction ends with that was to stop meanwhile.
structure Header.PassedOver (h : Header) (bytes : List UInt8) (n : Nat) (e : ExtractError) :
    Prop where
  kind  : h.kind = .directory ∨ ∃ flag, h.kind = .other flag
  taken : n = min bytes.length (h.size.toNat + (padding h.size).toNat)
  error : e = if h.size.toNat + (padding h.size).toNat ≤ bytes.length then .interrupted
    else .readFailed

-- An extraction that is to stop after `c` bytes of a stream takes `n`: behind whole entries it is
-- at the header of a record before it is to stop, and it passes over the payload.
structure Archive.Overruns (l : Limits) (bytes : List UInt8) (c n : Nat) (e : ExtractError)
    (front : List UInt8) (h : Header) (rest : List UInt8) : Prop where
  record : ∃ b es, bytes = front ++ (Block.bytes b ++ rest) ∧
    Header.decode b l.componentLength = .ok h ∧ Spans l.componentLength front es
  size   : h.size ≤ l.fileSize
  before : front.length < c
  passed : ∃ k, h.PassedOver rest k e ∧ n = front.length + 512 + k

theorem Archive.Overruns.cons {l : Limits} {bytes front rest payload pad : List UInt8} {b : Block}
    {c n k : Nat} {e : ExtractError} {h h' : Header}
    (ho : Overruns l bytes (c - k) n e front h rest) (hz : ¬ isZero b.bytes)
    (hd : Header.decode b l.componentLength = .ok h') (hs : payload.length = h'.size.toNat)
    (hp : pad.length = (padding h'.size).toNat) (hk : (b.bytes ++ payload ++ pad).length = k) :
    Overruns l (b.bytes ++ payload ++ pad ++ bytes) c (k + n) e (b.bytes ++ payload ++ pad ++ front)
      h rest where
  record := by
    obtain ⟨b', es, rfl, hd', hf⟩ := ho.record
    exact ⟨b', _, (List.append_assoc _ _ _).symm, hd', .cons hz hd hs hp hf⟩
  size := ho.size
  before := by
    have := ho.before
    rw [List.length_append, hk]
    omega
  passed := by
    have ⟨m, hm, hn⟩ := ho.passed
    refine ⟨m, hm, ?_⟩
    rw [List.length_append, hk]
    omega

def Header.PassedBetween (h : Header) (s t : Session) (e : ExtractError) : Prop :=
  ∃ n, h.PassedOver s.input.remaining n e ∧ t.position = s.position + n

theorem Header.PassedOver.of_lt {h : Header} {bytes : List UInt8} {n : Nat} {e : ExtractError}
    (hp : h.PassedOver bytes n e)
    (hlt : bytes.length < h.size.toNat + (padding h.size).toNat) :
    n = bytes.length ∧ e = .readFailed :=
  ⟨hp.taken.trans (Nat.min_eq_left (Nat.le_of_lt hlt)), hp.error.trans (if_neg (by omega))⟩

namespace Input

variable {s : Input} {h : Header}

theorem skip_takes (hj : s.joints = []) (n : Nat) :
    Ends (skip n) s
      (fun _ t => n ≤ s.remaining.length ∧ t.delivered = s.delivered + min s.remaining.length n)
      (fun e t => e = .readFailed ∧ ¬ n ≤ s.remaining.length ∧
        t.delivered = s.delivered + min s.remaining.length n) := by
  have ⟨schedule, hg⟩ := gather_eq hj (by decide : 0 < skipRequest) n
  rw [Nat.min_comm]
  by_cases hn : n ≤ s.remaining.length
  case pos =>
    rw [stopAt, if_pos hn] at hg
    rw [Ends, skip, hg]
    exact ⟨hn, rfl⟩
  case neg =>
    rw [stopAt, if_neg hn] at hg
    rw [Ends, skip, hg]
    cases s.ending with
    | finished | broken => exact ⟨rfl, hn, rfl⟩

theorem skipPayload_passes (hn : h.paddedSize = .ok (h.size.toNat + (padding h.size).toNat))
    (hk : h.kind = .directory ∨ ∃ flag, h.kind = .other flag) (hj : s.joints = []) :
    Ends (skipPayload h) s
      (fun _ t => ∃ n, h.PassedOver s.remaining n .interrupted ∧ t.delivered = s.delivered + n)
      (fun e t => ∃ n, h.PassedOver s.remaining n e ∧ t.delivered = s.delivered + n) := by
  rw [skipPayload, hn]
  refine (skip_takes hj _).imp ?_ ?_
  · rintro _ t ⟨hle, ht⟩
    exact ⟨_, ⟨hk, rfl, by rw [if_pos hle]⟩, ht⟩
  · rintro e t ⟨he, hlt, ht⟩
    exact ⟨_, ⟨hk, rfl, by rw [if_neg hlt, he]⟩, ht⟩

end Input

namespace Extractor

def OverrunsBetween (x : Extractor) (c : Nat) (s t : Session) (e : ExtractError) : Prop :=
  ∃ n front h rest, Archive.Overruns x.limits s.input.remaining (c - s.position) n e front h rest ∧
    t.position = s.position + n

variable {x : Extractor} {c : Nat} {s : Session} {h : Header} {root : List String} {base : Location}

-- No more is looked at while a payload is passed over.
theorem passOver_ends (f : Summary → Summary)
    (hn : h.paddedSize = .ok (h.size.toNat + (padding h.size).toNat))
    (hk : h.kind = .directory ∨ ∃ flag, h.kind = .other flag) (hj : s.input.joints = []) :
    Ends (onInput (Input.skipPayload h) >>= fun _ => count f) s
      (fun _ t => h.PassedBetween s t .interrupted) (fun e t => h.PassedBetween s t e) := by
  refine (Ends.onInput (Input.skipPayload_passes hn hk hj)).bind ?_ ?_
  · rintro e _ ⟨input, ht, rfl⟩
    exact ht
  · rintro _ _ ⟨input, ht, rfl⟩
    exact Ends.modify ht

theorem record_passesOver {b : Block} {rest : List UInt8} {ending : Ending} {p target : Path}
    {flag : UInt8} (hc : ¬ x.cancelAfter.any (· ≤ s.position))
    (hs : s.input.Supplies (b.bytes ++ rest) ending) (hz : ¬ isZero b.bytes)
    (hd : Header.decode b x.limits.componentLength = .ok h) (hk : h.kind = .other flag)
    (hcheck : x.limits.check (s.seen + 1) s.summary.bytesExtracted h.size = .ok ())
    (hr : EntryPath.resolve x.limits p h.fullPath = .ok target) :
    Ends (x.record p) s
      (fun _ t => ∃ n, h.PassedOver rest n .interrupted ∧ t.position = s.position + 512 + n)
      (fun e t => ∃ n, h.PassedOver rest n e ∧ t.position = s.position + 512 + n) := by
  have ⟨schedule, hread⟩ := Input.readRecord_after hs hz
  have ⟨hrest, hposition⟩ := hs.after
  generalize hinput : { s.input.after 512 with schedule := schedule } = input at hread
  have hremaining : input.remaining = rest := hinput ▸ hrest.remaining
  have hdelivered : input.delivered = s.position + 512 := hinput ▸ hposition
  have hpoll : x.checkCancelled s = .ok () s := by rw [checkCancelled_eq, if_neg hc]
  have hnext := next_of_readRecord hpoll hread hd p
  rw [bind_of_ok (enforceLimits_of_check (s := { s with input := input }) hcheck), hr] at hnext
  have hdispatch : Ends (x.dispatch p target h) { s with input := input, seen := s.seen + 1 }
      (fun _ t => ∃ n, h.PassedOver rest n .interrupted ∧ t.position = s.position + 512 + n)
      (fun e t => ∃ n, h.PassedOver rest n e ∧ t.position = s.position + 512 + n) := by
    rw [dispatch_other hk, ← hremaining, ← hdelivered]
    exact passOver_ends _ (Header.paddedSize_of_decode hd) (.inr ⟨flag, hk⟩)
      (hinput ▸ hrest.joints)
  rw [record_eq]
  refine Ends.bind_ok hnext (hdispatch.bind (fun _ _ ht => ht) fun _ _ ht => ?_)
  exact Ends.modify_bind (Ends.pure ht)

theorem Begun.overruns {t u : Session} {e : ExtractError} (hb : x.Begun root h s t)
    (hj : s.input.joints = []) (hs : s.position < c) (hp : h.PassedBetween t u e) :
    x.OverrunsBetween c s u e := by
  obtain ⟨n, hp, hu⟩ := hp
  have ⟨b, _, hd, hi⟩ := hb.delivers
  refine ⟨512 + n, [], h, t.input.remaining, ?_, ?_⟩
  · exact {
      record := ⟨b, [], hi.remaining hj, hd, .nil⟩
      size := (Limits.allows_of_check hb.checked).fileSize
      before := Nat.sub_pos_of_lt hs
      passed := ⟨n, hp, by rw [List.length_nil, Nat.zero_add]⟩ }
  · rw [hu, Session.position, hi.delivered, b.size_eq, Nat.add_assoc]

theorem Completes.overruns {e : Entry} {t u : Session} {error : ExtractError}
    (h : x.Completes root base e s t) (hj : s.input.joints = [])
    (ho : x.OverrunsBetween c t u error) : x.OverrunsBetween c s u error := by
  obtain ⟨n, front, h', rest, ho, hu⟩ := ho
  have ⟨b, pad, hz, hd, hp, hi⟩ := h.delivers
  have ht : t.position = s.position + (b.bytes ++ e.payload ++ pad).length := hi.delivered
  rw [ht, ← Nat.sub_sub] at ho
  have hover := ho.cons hz hd h.length hp rfl
  rw [← hi.remaining hj] at hover
  exact ⟨_, _, h', rest, hover, by rw [hu, ht, Nat.add_assoc]⟩

theorem Begins.taken_eq {source : Source} {destination : Path} {fs : FileSystem}
    (hb : Begins source destination fs root base s) :
    x.taken source destination fs =
      (finalState (x.records (pathTo root)) s).position - s.position := by
  have hsession : x.session destination { files := fs, input := s.input } =
      x.records (pathTo root) s := by
    change (require (Destination.root fs destination) >>= fun root => x.runAt root) _ = _
    rw [hb.root]
    exact hb.runAt_eq
  simp only [taken, hb.opens]
  rw [finalState, hsession, ← finalState]

section Stop

variable (hc : x.cancelAfter = some c)

include hc

theorem checkCancelled_polls (s : Session) :
    Ends x.checkCancelled s (fun _ t => t = s ∧ s.position < c) (fun _ t => t = s) := by
  rw [Ends, checkCancelled_eq, hc, Option.any_some]
  by_cases h : c ≤ s.position
  case pos =>
    rw [if_pos (decide_eq_true h)]
  case neg =>
    rw [if_neg (by simpa using h)]
    exact ⟨rfl, Nat.lt_of_not_le h⟩

theorem record_of_stop (p : Path) (h : c ≤ s.position) : x.record p s = .error .interrupted s :=
  record_of_cancelled (by rw [hc, Option.any_some]; exact decide_eq_true h)

theorem position_lt_of_record {p : Path} {more : Bool} {t : Session}
    (hr : x.record p s = .ok more t) : s.position < c := by
  by_contra h
  cases (record_of_stop hc p (Nat.le_of_not_lt h)).symm.trans hr

theorem copyChunk_stops (file : OutputFile) (left : Nat) (hs : s.position ≤ c + chunkSize) :
    Ends (x.copyChunk file left) s (fun _ t => t.position ≤ c + chunkSize)
      (fun _ t => t.position ≤ c + chunkSize) := by
  refine (checkCancelled_polls hc s).bind (fun _ _ ht => ht ▸ hs) ?_
  rintro _ t ⟨rfl, hlt⟩
  have htakes := (takes_onInput (Input.takes_readChunk (min left chunkSize))).bind fun bytes =>
    takes_onOutput (x := x) (OutputFile.write · file bytes)
  refine (htakes.ends t).imp ?_ ?_ <;> intro _ u hu <;> omega

theorem copyPayload_stops (file : OutputFile) (left : Nat) (hs : s.position ≤ c + chunkSize) :
    Ends (x.copyPayload file left) s (fun _ t => t.position ≤ c + chunkSize)
      (fun _ t => t.position ≤ c + chunkSize) := by
  induction left using copyPayload.induct generalizing s with
  | case1 =>
    rw [copyPayload_zero]
    exact Ends.pure hs
  | case2 left hl ih =>
    rw [copyPayload_eq hl]
    exact (copyChunk_stops hc file left hs).bind (fun _ _ ht => ht) fun _ _ ht => ih ht

theorem writeFile_stops (p target : Path) (size : UInt64) (hs : s.position ≤ c + chunkSize) :
    Ends (x.writeFile p target size) s (fun _ t => t.position ≤ c + chunkSize + 511)
      (fun _ t => t.position ≤ c + chunkSize + 511) := by
  refine ((takes_onFiles _).ends s).bind (fun _ _ ht => by omega) fun _ t ht => ?_
  refine ((takes_onOutput _).ends t).bind (fun _ _ hu => by omega) fun file u hu => ?_
  refine Ends.withCleanUp ((copyPayload_stops hc file size.toNat (by omega)).bind ?_ ?_)
  · intro _ v (hv : v.position ≤ c + chunkSize)
    exact Nat.le_add_right_of_le hv
  · intro _ v hv
    have hpad := Header.toNat_padding_lt size
    have hskip := (takes_onInput (Input.takes_skip (padding size).toNat)).ends v
    refine hskip.imp ?_ ?_
    · intro _ w hw
      omega
    · intro _ w (hw : w.position ≤ v.position + (padding size).toNat)
      change w.position ≤ _
      omega

theorem dispatch_stops (hj : s.input.joints = []) (hs : s.position ≤ c + chunkSize)
    (hn : h.paddedSize = .ok (h.size.toNat + (padding h.size).toNat)) (p target : Path) :
    Ends (x.dispatch p target h) s
      (fun _ t => t.position ≤ c + chunkSize + 511 ∨ h.PassedBetween s t .interrupted)
      (fun e t => t.position ≤ c + chunkSize + 511 ∨ h.PassedBetween s t e) := by
  have hs' : s.position ≤ c + chunkSize + 511 := Nat.le_add_right_of_le hs
  cases hk : h.kind with
  | directory =>
    rw [dispatch_directory hk]
    refine (Ends.onFiles Ends.any).bind ?_ ?_
    · rintro _ _ ⟨files, -, rfl⟩
      exact .inl hs'
    · rintro _ _ ⟨files, -, rfl⟩
      refine (passOver_ends _ hn (.inl hk) ?_).imp (fun _ _ => .inr) fun _ _ => .inr
      exact hj
  | regular =>
    rw [dispatch_regular hk]
    refine (writeFile_stops hc p target h.size hs).bind (fun _ _ => .inl) fun _ _ ht => ?_
    exact Ends.modify (.inl ht)
  | hardLink =>
    rw [dispatch_link (.inl hk)]
    exact Ends.throw (.inl hs')
  | symbolicLink =>
    rw [dispatch_link (.inr hk)]
    exact Ends.throw (.inl hs')
  | other flag =>
    rw [dispatch_other hk]
    exact (passOver_ends _ hn (.inr ⟨flag, hk⟩) hj).imp (fun _ _ => .inr) fun _ _ => .inr

theorem record_stops (ho : AllOrdinary root) (hj : s.input.joints = []) (hs : s.position < c) :
    Ends (x.record (pathTo root)) s
      (fun more t => t.position ≤ c + chunkSize + 511 ∨
        more = true ∧ x.OverrunsBetween c s t .interrupted)
      (fun e t => t.position ≤ c + chunkSize + 511 ∨ x.OverrunsBetween c s t e) := by
  have hchunk : 512 ≤ chunkSize := by decide
  rw [record_eq]
  refine ((next_ends x ho s).and ((takes_next (pathTo root)).ends s)).bind ?refused ?begun
  case refused => exact fun _ t ⟨_, ht⟩ => .inl (by omega)
  case begun =>
    intro o t ⟨hb, ht⟩
    match o with
    | none => exact Ends.pure (.inl (by omega))
    | some (h, target) =>
      have ⟨_, _, _, hi⟩ := hb.1.delivers
      have hdispatch := dispatch_stops hc (hi.joints.trans hj) (by omega) hb.1.paddedSize
        (pathTo root) target
      refine hdispatch.bind ?failed ?dispatched
      case failed => exact fun _ _ hu => hu.imp_right (hb.1.overruns hj hs)
      case dispatched =>
        intro _ u hu
        refine Ends.modify_bind (Ends.pure (hu.imp_right fun hp => ⟨rfl, ?_⟩))
        exact hb.1.overruns hj hs hp

theorem records_stops (hl : s.files.Leads root base) (hj : s.input.joints = [])
    (hs : s.position ≤ c + chunkSize + 511) :
    Ends (x.records (pathTo root)) s (fun _ t => t.position ≤ c + chunkSize + 511)
      (fun e t => t.position ≤ c + chunkSize + 511 ∨ x.OverrunsBetween c s t e) := by
  induction s using records.induct x (pathTo root) with
  | case1 s t hr ih =>
    have ⟨e, hcompletes⟩ := (record_ends x hl).of_ok hr
    have ⟨_, _, _, _, _, hi⟩ := hcompletes.delivers
    by_cases ht : t.position ≤ c + chunkSize + 511
    case pos =>
      have hmore := ih (hcompletes.leads hl) (hi.joints.trans hj) ht
      rw [Ends, records_of_next hr, ← Ends]
      exact hmore.imp (fun _ _ hu => hu) fun _ _ hu => hu.imp_right (hcompletes.overruns hj)
    case neg =>
      -- So much was passed over that the next record is not begun any more.
      have hstop := (record_stops hc hl.ordinary hj (position_lt_of_record hc hr)).of_ok hr
      have hlast : x.record (pathTo root) t = .error .interrupted t :=
        record_of_stop hc _ (by omega)
      exact Ends.of_eq_error ((records_of_next hr).trans (records_of_error hlast))
        (.inr (hstop.resolve_left ht).2)
  | case2 s t hr =>
    have hstop := (record_stops hc hl.ordinary hj (position_lt_of_record hc hr)).of_ok hr
    exact Ends.of_eq (records_of_end hr) (hstop.resolve_right fun ho => Bool.false_ne_true ho.1)
  | case3 s e t hr =>
    by_cases h : c ≤ s.position
    case pos =>
      cases (record_of_stop hc _ h).symm.trans hr
      exact Ends.of_eq_error (records_of_error hr) (.inl hs)
    case neg =>
      have hstop := (record_stops hc hl.ordinary hj (Nat.lt_of_not_le h)).of_error hr
      exact Ends.of_eq_error (records_of_error hr) hstop

end Stop

-- An extraction that is to stop after `c` bytes takes no more than one chunk and one padding
-- besides, unless it passes over a payload. That it passes over to its end, however long that is,
-- and only then it stops.
theorem taken_of_cancelled (limits : Limits) (c : Nat) (bytes : List UInt8) (ending : Ending)
    (schedule : Schedule) (destination : Path) (fs : FileSystem) :
    let x : Extractor := { limits := limits, cancelAfter := some c }
    let taken := x.taken (.reader bytes ending schedule) destination fs
    taken ≤ c + 16384 + 511 ∨
      ∃ e fs' front h rest,
        x.extract (.reader bytes ending schedule) destination fs = .error e fs' ∧
        Archive.Overruns limits bytes c taken e front h rest := by
  intro x taken
  let input : Input := { remaining := bytes, ending := ending, schedule := schedule }
  -- The session is the run with its stream, whose position at the end is what was taken.
  have hsession : Ends (x.session destination) { files := fs, input := input }
      (fun _ t => t.position ≤ c + chunkSize + 511)
      (fun e t => t.position ≤ c + chunkSize + 511 ∨
        ∃ front h rest, Archive.Overruns limits bytes c t.position e front h rest) := by
    refine session_ends destination fs (fun _ _ => .inl (Nat.zero_le _)) fun hl => ?_
    refine (records_stops rfl hl rfl (Nat.zero_le _)).imp (fun _ _ ht => ht) fun e t ht => ?_
    refine ht.imp_right ?_
    rintro ⟨n, front, h, rest, ho, hn⟩
    rw [hn, Session.position, Nat.zero_add]
    exact ⟨front, h, rest, ho⟩
  have hrun := x.run_eq input destination fs
  have htaken : taken =
      (finalState (x.session destination) { files := fs, input := input }).position :=
    Nat.sub_zero _
  cases hx : x.session destination { files := fs, input := input } with
  | ok _ t =>
    rw [finalState_of_ok hx] at htaken
    rw [htaken]
    exact .inl (hsession.of_ok hx)
  | error e t =>
    rw [finalState_of_error hx] at htaken
    rw [hx] at hrun
    rw [htaken]
    refine (hsession.of_error hx).imp_right ?_
    exact fun ⟨front, h, rest, ho⟩ => ⟨e, t.files, front, h, rest, hrun, ho⟩

end Extractor

def Header.pipe : Header where
  name := "p"
  mode := 0o644
  size := 100000
  flag := '6'.toUInt8

-- The pipe is passed over to the end of the stream, long after the extraction was to stop.
theorem Extractor.taken_of_cancelled_pipe :
    let x : Extractor := { cancelAfter := some 600 }
    let source := Source.reader (Header.pipe.encode.bytes ++ List.replicate 60000 0) .finished
      Input.plainSchedule
    600 + 16384 + 511 < x.taken source ⟨"out"⟩ (FileSystem.root 0) ∧
    ∃ fs', x.extract source ⟨"out"⟩ (FileSystem.root 0) = .error .readFailed fs' := by
  have hlength : (List.replicate 60000 (0 : UInt8)).length = 60000 := List.length_replicate
  generalize List.replicate 60000 (0 : UInt8) = rest at hlength
  intro x source
  have ⟨files, hprepare, hl, _⟩ :=
    Destination.prepare_of_isVacant FileSystem.isVacant_out FileSystem.short_out
  let s : Session :=
    { files := files
      input := { remaining := Header.pipe.encode.bytes ++ rest
                 ending := .finished
                 schedule := Input.plainSchedule } }
  have hb : Begins source ⟨"out"⟩ (FileSystem.root 0) ["out"] ["out"] s :=
    .of_prepare rfl Destination.root_out hprepare hl
  have hd : Header.decode Header.pipe.encode x.limits.componentLength = .ok Header.pipe.written :=
    (Header.decode_encode (by decide) (by decide) _).trans (if_pos (by decide))
  have hcomponents : EntryPath.components x.limits Header.pipe.written.fullPath = .ok ["p"] := rfl
  have hresolve := EntryPath.resolve_of_components hb.leads.ordinary hcomponents
  have hsize : Header.pipe.written.size = 100000 := rfl
  have hshort : rest.length <
      Header.pipe.written.size.toNat + (padding Header.pipe.written.size).toNat := by
    rw [hlength, hsize]
    decide
  have hkind : Header.pipe.written.kind = .other '6'.toUInt8 :=
    Header.kind_written.trans (by decide)
  have hcheck : x.limits.check 1 0 Header.pipe.written.size = .ok () := by
    rw [hsize]
    decide
  have hstart : s.position = 0 := rfl
  have hpoll : ¬ x.cancelAfter.any (· ≤ s.position) := by
    rw [hstart]
    decide
  have hrecord := record_passesOver (s := s) hpoll ⟨rfl, rfl, rfl⟩ Header.pipe.not_isZero_encode hd
    hkind hcheck hresolve
  cases hx : x.record (pathTo ["out"]) s with
  | ok more t =>
    obtain ⟨n, hp, -⟩ := hrecord.of_ok hx
    cases (hp.of_lt hshort).2
  | error e t =>
    obtain ⟨n, hp, ht⟩ := hrecord.of_error hx
    obtain ⟨rfl, rfl⟩ := hp.of_lt hshort
    have hrecords := records_of_error hx
    refine ⟨?_, t.files, hb.extract_of_error hrecords⟩
    rw [hb.taken_eq, finalState_of_error hrecords, ht, hstart, hlength]
    decide

end TarGuard
