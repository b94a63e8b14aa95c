import TarGuard.Proofs.Completeness
import TarGuard.Proofs.Confinement
import TarGuard.Proofs.Taken

namespace TarGuard

open FileSystem Extraction

def Header.bare (h : Header) : Header where
  name := h.name
  leading := h.leading
  size := h.size
  flag := h.flag

namespace Block

def payloadSize (b : Block) : UInt64 :=
  Octal.parse (b.field 124 12)

-- Two records for the same entry. Each has a checksum that fits, and they may differ in all that is
-- not looked at.
structure SameEntry (b b' : Block) : Prop where
  checksum : b.HasChecksum ∧ b'.HasChecksum
  name     : b.field 0 100 = b'.field 0 100
  size     : b.field 124 12 = b'.field 124 12
  flag     : b.field 156 1 = b'.field 156 1
  leading  : b.field 345 155 = b'.field 345 155

variable {b b' : Block} {bound : UInt64} {h : Header}

theorem HasChecksum.not_isZero_of_checksumField {c : Block} (h : b.HasChecksum)
    (hf : c.checksumField = b.checksumField) : ¬ isZero c.bytes := by
  intro hz
  have hzero : c.checksumField = List.replicate 8 0 := by
    refine List.eq_replicate_iff.mpr ⟨by simp [checksumField, field, c.size_eq], fun a ha => ?_⟩
    have hm : a ∈ c.bytes := List.mem_of_mem_drop (List.mem_of_mem_take ha)
    exact beq_iff_eq.mp (List.all_eq_true.mp hz a hm)
  have hsum : b.checksum = 0 := by
    rw [h, ← hf, hzero]
    decide
  rw [checksum] at hsum
  omega

theorem HasChecksum.not_isZero (h : b.HasChecksum) : ¬ isZero b.bytes :=
  h.not_isZero_of_checksumField rfl

theorem size_of_decode (hd : Header.decode b bound = .ok h) : h.size = b.payloadSize :=
  (Header.decodedFrom_of_decode hd).size

namespace SameEntry

theorem payloadSize_eq (h : b.SameEntry b') : b'.payloadSize = b.payloadSize := by
  rw [payloadSize, payloadSize, h.size]

theorem get_flag (h : b.SameEntry b') (hi : 156 < b.bytes.length) (hi' : 156 < b'.bytes.length) :
    b.bytes.get ⟨156, hi⟩ = b'.bytes.get ⟨156, hi'⟩ := by
  have hflag := congrArg List.head? h.flag
  simpa [field, List.head?_take, List.head?_drop, hi, hi'] using hflag

theorem decode_bare (h : b.SameEntry b') (bound : UInt64) :
    (Header.decode b bound).map Header.bare = (Header.decode b' bound).map Header.bare := by
  simp only [Header.decode, if_pos h.checksum.1, if_pos h.checksum.2, h.name, h.leading]
  split
  · have hf := h.get_flag (by simp [b.size_eq]) (by simp [b'.size_eq])
    simp only [Except.map, Header.bare, h.size, hf]
  · rfl

end SameEntry

end Block

-- Two streams with records of the same entries. The bytes between the records are the same, and
-- all are the same where there are no more records.
inductive Archive.SameEntries : List UInt8 → List UInt8 → Prop
  | same (bytes) : SameEntries bytes bytes
  | last {b b' bytes} : Block.SameEntry b b' → SameEntries (b.bytes ++ bytes) (b'.bytes ++ bytes)
  | record {b b' payload pad rest rest'} : Block.SameEntry b b' →
    payload.length = b.payloadSize.toNat → pad.length = (padding b.payloadSize).toNat →
    SameEntries rest rest' →
    SameEntries (b.bytes ++ (payload ++ pad ++ rest)) (b'.bytes ++ (payload ++ pad ++ rest'))

theorem Archive.SameEntries.nil_of_nil {bytes : List UInt8}
    (h : Archive.SameEntries [] bytes) : bytes = [] := by
  have hne (b : Block) : b.bytes ≠ [] := fun he => by simpa [he] using b.size_eq
  generalize hn : ([] : List UInt8) = bytes' at h
  cases h with
  | same => rfl
  | last | record => exact absurd (List.append_eq_nil_iff.mp hn.symm).1 (hne _)

namespace Input

variable {s t : Input} {b : Block} {front rest rest' : List UInt8} {ending : Ending}

theorem AgreesUpTo.of_supplies (hs : s.Supplies rest ending) (ht : t.Supplies rest ending)
    (hd : s.delivered = t.delivered) (n : Nat) : s.AgreesUpTo n t where
  joints := ⟨hs.joints, ht.joints⟩
  delivered := hd
  bytes := by rw [hs.remaining, ht.remaining]
  ending _ := ⟨hs.remaining.trans ht.remaining.symm, hs.ending.trans ht.ending.symm⟩

theorem AgreesUpTo.of_append (hs : s.Supplies (front ++ rest) ending)
    (ht : t.Supplies (front ++ rest') ending) (hd : s.delivered = t.delivered)
    (hr : rest = [] → rest' = []) : s.AgreesUpTo (s.delivered + front.length) t where
  joints := ⟨hs.joints, ht.joints⟩
  delivered := hd
  bytes := by
    rw [hs.remaining, ht.remaining, Nat.add_sub_cancel_left, List.take_left' rfl,
      List.take_left' rfl]
  ending hle := by
    rw [hs.remaining, List.length_append] at hle
    have hnil : rest = [] := List.length_eq_zero_iff.mp (by omega)
    rw [hs.remaining, ht.remaining, hnil, hr hnil]
    exact ⟨rfl, hs.ending.trans ht.ending.symm⟩

theorem Supplies.after (h : s.Supplies (b.bytes ++ rest) ending) :
    (s.after 512).Supplies rest ending ∧ (s.after 512).delivered = s.delivered + 512 := by
  refine ⟨⟨h.joints, ?_, h.ending⟩, ?_⟩
  · simp only [Input.after, h.remaining, List.drop_left' b.size_eq]
  · simp only [Input.after, h.remaining, List.length_append, b.size_eq]
    omega

theorem readRecord_after (h : s.Supplies (b.bytes ++ rest) ending)
    (hz : ¬ isZero b.bytes) :
    ∃ schedule, readRecord s = .ok (some b) { s.after 512 with schedule := schedule } := by
  have ⟨schedule, hg⟩ := gather_eq h.joints (by decide : 0 < 512) 512
  have hle : 512 ≤ (b.bytes ++ rest).length := by
    rw [List.length_append, b.size_eq]
    omega
  rw [stopAt, h.remaining, List.take_left' b.size_eq, if_pos hle] at hg
  have hb := readBlock_of_gather hg
  refine ⟨schedule, ?_⟩
  rw [readRecord_of_readBlock hb, Option.filter_some, if_pos (by simpa using hz)]

end Input

def Session.Parallel (s t : Session) : Prop :=
  t = { s with input := t.input }

theorem EndAlike.mono {r r' : σ → σ → Prop} {a b : EStateM.Result ε σ α} (h : EndAlike r a b)
    (hr : ∀ s t, r s t → r' s t) : EndAlike r' a b := by
  cases h with
  | ok h => exact .ok (hr _ _ h)
  | error h => exact .error (hr _ _ h)

theorem Confined.kept_or_mode {fs fs' : FileSystem} {destination : Path} {l : Location}
    {node : Node} (h : Confined fs fs' destination) (hn : fs'.node? l = some node) :
    fs.node? l = some node ∨ node = .directory 0o755 ∨ node = .directory 0o700 ∨
      ∃ f, node = .file f ∧ f.mode = 0o600 := by
  cases hl : fs.node? l with
  | some old => exact .inl ((h.kept l old hl).symm.trans hn)
  | none =>
    cases h.added l node hl hn with
    | way _ _ _ hmode => exact .inr (.inl hmode)
    | below _ _ hprivate => exact .inr (.inr hprivate.mode)

namespace Extractor

variable {x : Extractor} {s t : Session} {b b' : Block} {bytes bytes' : List UInt8}
  {ending : Ending} {n : Nat} {root : Path}

def follow (x : Extractor) (root : Path) (b : Block) : Extraction Bool := do
  x.entry root (← require (Header.decode b x.limits.componentLength))
  return true

theorem local_follow (root : Path) (b : Block) : IsLocal (x.follow root b) :=
  (Local.require _).bind fun h => (local_entry root h).bind fun _ => Local.pure true

theorem entry_bare (x : Extractor) (root : Path) (h : Header) :
    x.entry root h.bare = x.entry root h := rfl

theorem follow_of_sameEntry (x : Extractor) (root : Path) (h : b.SameEntry b') :
    x.follow root b = x.follow root b' := by
  have hd := h.decode_bare x.limits.componentLength
  unfold follow
  cases hb : Header.decode b x.limits.componentLength with
  | error e =>
    cases hb' : Header.decode b' x.limits.componentLength with
    | error e' => simp_all [Except.map]
    | ok h' => simp [hb, hb', Except.map] at hd
  | ok h =>
    cases hb' : Header.decode b' x.limits.componentLength with
    | error e' => simp [hb, hb', Except.map] at hd
    | ok h' =>
      rw [hb, hb'] at hd
      change (x.entry root h >>= fun _ => pure true) = (x.entry root h' >>= fun _ => pure true)
      rw [← entry_bare, Except.ok.inj hd, entry_bare]

theorem record_of_cancelled (hc : x.cancelAfter.any (· ≤ s.input.delivered)) :
    x.record root s = .error .interrupted s :=
  bind_of_error (by rw [checkCancelled_eq, if_pos hc])

theorem record_of_readRecord {input : Input} (hc : ¬ x.cancelAfter.any (· ≤ s.input.delivered))
    (hr : Input.readRecord s.input = .ok (some b) input) :
    x.record root s = x.follow root b { s with input := input } := by
  have hcheck : x.checkCancelled s = .ok () s := by rw [checkCancelled_eq, if_neg hc]
  rw [record, bind_of_ok hcheck, bind_of_ok (onInput_of_ok hr)]
  rfl

theorem record_of_readRecord_error {input : Input} {e : ExtractError}
    (hc : ¬ x.cancelAfter.any (· ≤ s.input.delivered))
    (hr : Input.readRecord s.input = .error e input) :
    x.record root s = .error e { s with input := input } := by
  have hcheck : x.checkCancelled s = .ok () s := by rw [checkCancelled_eq, if_neg hc]
  rw [record, bind_of_ok hcheck, bind_of_error (onInput_of_error hr)]

theorem record_of_decode_error {input : Input} {e : ExtractError}
    (hc : ¬ x.cancelAfter.any (· ≤ s.input.delivered))
    (hr : Input.readRecord s.input = .ok (some b) input)
    (hd : Header.decode b x.limits.componentLength = .error e) :
    x.record root s = .error e { s with input := input } := by
  rw [record_of_readRecord hc hr, follow, hd]
  rfl

theorem record_alike (hb : b.SameEntry b') (hs : s.input.Supplies (b.bytes ++ bytes) ending)
    (ht : t.input.Supplies (b'.bytes ++ bytes') ending) (hp : s.Parallel t)
    (ha : (s.input.after 512).AgreesUpTo n (t.input.after 512))
    (hn : (finalState (x.record root) s).position ≤ n) :
    EndAlike Session.Parallel (x.record root s) (x.record root t) ∧
      ∀ u v, x.record root s = .ok true u → x.record root t = .ok true v → u.AgreesUpTo n v := by
  have hdelivered : s.input.delivered = t.input.delivered := by
    have hd := ha.delivered
    simp only [Input.after, hs.remaining, ht.remaining, List.length_append, b.size_eq,
      b'.size_eq] at hd
    omega
  by_cases hc : x.cancelAfter.any (· ≤ s.input.delivered)
  case pos =>
    have hc' := hdelivered ▸ hc
    rw [record_of_cancelled hc, record_of_cancelled hc']
    refine ⟨.error hp, fun u v hu => ?_⟩
    cases hu
  case neg =>
    have hc' := hdelivered ▸ hc
    obtain ⟨schedule, hr⟩ := Input.readRecord_after hs hb.checksum.1.not_isZero
    obtain ⟨schedule', hr'⟩ := Input.readRecord_after ht hb.checksum.2.not_isZero
    rw [finalState, record_of_readRecord hc hr, ← finalState] at hn
    rw [record_of_readRecord hc hr, record_of_readRecord hc' hr', ← x.follow_of_sameEntry root hb]
    have halike := (local_follow root b).alike (t := { t with
      input := { t.input.after 512 with schedule := schedule' } }) ⟨?_, ?_⟩ hn
    · refine ⟨halike.mono fun _ _ h => h.eq, fun u v hu hv => ?_⟩
      rw [hu, hv] at halike
      cases halike with
      | ok h => exact h
    · rw [hp]
    · exact ⟨ha.joints, ha.delivered, ha.bytes, ha.ending⟩

section Record

variable {names : List String} {base : Location} {payload pad rest : List UInt8}
  (hb : b.HasChecksum)

include hb

theorem NextHeader.decode_eq {h : Header} (hh : x.NextHeader s h)
    (hs : s.input.Supplies (b.bytes ++ bytes) ending) :
    Header.decode b x.limits.componentLength = .ok h := by
  have ⟨_, _, hr', hd⟩ := hh
  have ⟨_, hr⟩ := Input.readRecord_after hs hb.not_isZero
  cases hr.symm.trans hr'
  exact hd

theorem position_record_le (ho : AllOrdinary names)
    (hs : s.input.Supplies (b.bytes ++ bytes) ending) :
    (finalState (x.record (pathTo names)) s).position ≤
      s.position + 512 + (b.payloadSize.toNat + (padding b.payloadSize).toNat) := by
  cases (record_takes x ho s).finalState with
  | header hle => omega
  | payload h hnext _ hle => rwa [Block.size_of_decode (hnext.decode_eq hb hs)] at hle

theorem supplies_of_record (hl : s.files.Leads names base)
    (hs : s.input.Supplies (b.bytes ++ (payload ++ pad ++ rest)) ending)
    (hpayload : payload.length = b.payloadSize.toNat)
    (hpad : pad.length = (padding b.payloadSize).toNat)
    (ht : x.record (pathTo names) s = .ok true t) :
    t.files.Leads names base ∧ t.input.Supplies rest ending := by
  have ⟨e, hc⟩ := (record_ends x hl).of_ok ht
  have hd := hc.header.decode_eq hb hs
  rw [← Block.size_of_decode hd] at hpayload hpad
  exact ⟨hc.leads hl, (hc.eq_of_supplies hs hd rfl hpayload hpad).2⟩

end Record

theorem records_of_record_alike
    (h : EndAlike Session.Parallel (x.record root s) (x.record root t))
    (hnext : ∀ u v, x.record root s = .ok true u → x.record root t = .ok true v →
      EndAlike Session.Parallel (x.records root u) (x.records root v)) :
    EndAlike Session.Parallel (x.records root s) (x.records root t) := by
  cases hs : x.record root s with
  | error e u =>
    cases ht : x.record root t with
    | error e' v =>
      rw [hs, ht] at h
      rw [records_of_error hs, records_of_error ht]
      cases h with
      | error h => exact .error h
    | ok => rw [hs, ht] at h; cases h
  | ok more u =>
    cases ht : x.record root t with
    | error => rw [hs, ht] at h; cases h
    | ok more' v =>
      rw [hs, ht] at h
      cases h with
      | ok h =>
        cases more with
        | true =>
          rw [records_of_next hs, records_of_next ht]
          exact hnext u v hs ht
        | false =>
          rw [records_of_end hs, records_of_end ht]
          exact .ok h

theorem records_of_agreesUpTo (h : s.AgreesUpTo n t)
    (hn : (finalState (x.records root) s).position ≤ n) :
    EndAlike Session.Parallel (x.records root s) (x.records root t) :=
  ((local_records root).alike h hn).mono fun _ _ h => h.eq

theorem records_alike {names : List String} {base : Location}
    (h : Archive.SameEntries bytes bytes') (hl : s.files.Leads names base)
    (hs : s.input.Supplies bytes ending) (ht : t.input.Supplies bytes' ending) (hp : s.Parallel t)
    (hd : s.input.delivered = t.input.delivered) :
    EndAlike Session.Parallel (x.records (pathTo names) s) (x.records (pathTo names) t) := by
  induction h generalizing s t with
  | same bytes => exact records_of_agreesUpTo ⟨hp, .of_supplies hs ht hd _⟩ (Nat.le_refl _)
  | @last b b' bytes hb =>
    have ⟨hs', hsd⟩ := hs.after
    have ⟨ht', htd⟩ := ht.after
    have hafter := Input.AgreesUpTo.of_supplies hs' ht' (by omega)
    have halike (n : Nat) (hn : (finalState (x.record (pathTo names)) s).position ≤ n) :=
      record_alike hb hs ht hp (hafter n) hn
    refine records_of_record_alike (halike _ (Nat.le_refl _)).1 fun u v hu hv => ?_
    -- As far as the rest of the run gets, and the record itself.
    let n := (finalState (x.records (pathTo names)) u).position +
      (finalState (x.record (pathTo names)) s).position
    have hagree := (halike n (Nat.le_add_left _ _)).2 u v hu hv
    exact records_of_agreesUpTo hagree (Nat.le_add_right _ _)
  | @record b b' payload pad rest rest' hb hpayload hpad hrest ih =>
    have hnil (h : rest = []) : rest' = [] := (h ▸ hrest).nil_of_nil
    have ⟨hs', hsd⟩ := hs.after
    have ⟨ht', htd⟩ := ht.after
    have hafter := Input.AgreesUpTo.of_append hs' ht' (by omega) hnil
    rw [hsd, List.length_append, hpayload, hpad] at hafter
    have hle := position_record_le (x := x) hb.checksum.1 hl.ordinary hs
    have ⟨hrecord, hagree⟩ := record_alike hb hs ht hp hafter hle
    refine records_of_record_alike hrecord fun u v hu hv => ?_
    have ⟨hlu, hsu⟩ := supplies_of_record hb.checksum.1 hl hs hpayload hpad hu
    have hlt : t.files.Leads names base := hp ▸ hl
    rw [← hb.payloadSize_eq] at hpayload hpad
    have ⟨_, hsv⟩ := supplies_of_record hb.checksum.2 hlt ht hpayload hpad hv
    have huv := hagree u v hu hv
    exact ih hlu hsu hsv huv.eq huv.input.delivered

variable {destination : Path} {fs fs' : FileSystem}

theorem extract_eq_of_sameEntries (x : Extractor) (h : Archive.SameEntries bytes bytes')
    (ending : Ending) (schedule schedule' : Schedule) (destination : Path) (fs : FileSystem) :
    x.extract (.reader bytes ending schedule) destination fs =
      x.extract (.reader bytes' ending schedule') destination fs := by
  rw [extract_of_open rfl, extract_of_open rfl]
  cases hr : Destination.root fs destination with
  | error e => rw [run_of_root_error hr, run_of_root_error hr]
  | ok root =>
    obtain ⟨names, ho, rfl⟩ := Destination.exists_root_eq_pathTo hr
    cases hp : Destination.prepare (pathTo names) fs with
    | error e fs' =>
      have hx (input : Input) : x.runAt (pathTo names) { files := fs, input := input } =
          .error e { files := fs', input := input } :=
        bind_of_error (onFiles_of_error hp)
      rw [run_of_error hr (hx _), run_of_error hr (hx _)]
    | ok _ fs' =>
      have ⟨_, base, hl⟩ := (Destination.prepare_ends fs ho).of_ok hp
      have hx (input : Input) : x.runAt (pathTo names) { files := fs, input := input } =
          x.records (pathTo names) { files := fs', input := input } :=
        bind_of_ok (onFiles_of_ok hp)
      let input : Input := { remaining := bytes, ending := ending, schedule := schedule }
      let input' : Input := { remaining := bytes', ending := ending, schedule := schedule' }
      have halike : EndAlike Session.Parallel (x.records (pathTo names) ⟨fs', input, 0, {}⟩)
          (x.records (pathTo names) ⟨fs', input', 0, {}⟩) :=
        records_alike h hl ⟨rfl, rfl, rfl⟩ ⟨rfl, rfl, rfl⟩ rfl rfl
      simp only [run, hr, hx]
      generalize x.records (pathTo names) ⟨fs', input, 0, {}⟩ = r at *
      generalize x.records (pathTo names) ⟨fs', input', 0, {}⟩ = r' at *
      cases halike with
      | ok hp | error hp => rw [hp]

theorem extract_of_sameEntries (x : Extractor) (h : Archive.SameEntries bytes bytes')
    (ending : Ending) (schedule schedule' : Schedule) (destination : Path) (fs : FileSystem) :
    x.extract (.reader bytes ending schedule) destination fs =
        x.extract (.reader bytes' ending schedule') destination fs ∧
      ∀ l node, (finalState (x.extract (.reader bytes ending schedule) destination) fs).node? l =
          some node →
        fs.node? l = some node ∨ node = .directory 0o755 ∨ node = .directory 0o700 ∨
          ∃ f, node = .file f ∧ f.mode = 0o600 := by
  refine ⟨x.extract_eq_of_sameEntries h ending schedule schedule' destination fs, ?_⟩
  have hends := extract_ends x (.reader bytes ending schedule) destination fs
  have hconfined := Ends.finalState (p := fun fs' => Confined fs fs' destination)
    (hends.imp ?done fun _ _ hf => hf.confined)
  case done =>
    intro summary fs' ⟨names, base, s, u, t, hs, _, ht⟩
    exact ht ▸ hs.begins.confined hs.grows_isPrivateBelow
  exact fun l node hn => hconfined.kept_or_mode hn

end Extractor

theorem Header.sameEntry_encode {h h' : Header} (hb : h.bare = h'.bare) :
    h.encode.SameEntry h'.encode := by
  have ⟨hname, hleading, _, _, hsize, _, _, hflag⟩ := Header.ext_iff.mp hb
  simp only [bare] at hname hleading hsize hflag
  -- The fields of one record are found again in the other.
  have hfield {i start width : Nat} {piece : List UInt8} (hp : h.fields[i]? = some piece)
      (hp' : h'.fields[i]? = some piece) (hstart : (widths.take i).sum = start)
      (hwidth : widths[i]? = some width) :
      h.encode.field start width = h'.encode.field start width :=
    (h.field_encode hp hstart hwidth).trans (h'.field_encode hp' hstart hwidth).symm
  exact {
    checksum := ⟨h.hasChecksum_encode, h'.hasChecksum_encode⟩
    name := hfield (i := 0) rfl (hname ▸ rfl) rfl rfl
    size := hfield (i := 4) rfl (hsize ▸ rfl) rfl rfl
    flag := hfield (i := 7) rfl (hflag ▸ rfl) rfl rfl
    leading := hfield (i := 11) rfl (hleading ▸ rfl) rfl rfl }

theorem Header.payloadSize_encode (h : Header) : h.encode.payloadSize = h.written.size := by
  have hfield : h.encode.field 124 12 = octalField 12 h.size.toNat :=
    h.field_encode (i := 4) rfl rfl rfl
  rw [Block.payloadSize, hfield, parse_octalField 11 (by decide) (by decide), written]

theorem Archive.sameEntries_write {entries : List Entry} (hs : ∀ e ∈ entries, e.Storable)
    {f : Entry → Entry}
    (hf : ∀ e ∈ entries, (f e).header.bare = e.header.bare ∧ (f e).payload = e.payload) :
    SameEntries (write entries) (write (entries.map f)) := by
  induction entries with
  | nil => exact .same _
  | cons e es ih =>
    have ⟨hse, hses⟩ := List.forall_mem_cons.mp hs
    have ⟨⟨hbare, hpayload⟩, hfes⟩ := List.forall_mem_cons.mp hf
    have hsize : e.payload.length = e.header.encode.payloadSize.toNat := by
      rw [Header.payloadSize_encode, hse.size_written, hse.payload]
    have hpad := hse.length_padding
    rw [← Header.payloadSize_encode] at hpad
    have h := SameEntries.record (Header.sameEntry_encode hbare.symm) hsize hpad (ih hses hfes)
    rw [write, write, List.map_cons, List.flatMap_cons, List.flatMap_cons, Entry.bytes, Entry.bytes,
      hpayload]
    simpa only [write, List.append_assoc] using h

def Entry.disguised (e : Entry) : Entry :=
  { e with header := { e.header with
    mode := 0o6777
    modified := 1700000000
    linkName := "/etc/passwd" } }

theorem Extractor.extract_greeting_disguised :
    Archive.SameEntries (Archive.write [Entry.greeting])
      (Archive.write [Entry.greeting.disguised]) ∧
    Extractor.extract {} (.reader (Archive.write [Entry.greeting]) .finished Input.plainSchedule)
        ⟨"out"⟩ (FileSystem.root 0) =
      Extractor.extract {}
        (.reader (Archive.write [Entry.greeting.disguised]) .finished Input.plainSchedule) ⟨"out"⟩
        (FileSystem.root 0) := by
  have hstorable := (List.forall_mem_cons.mp Entry.storable_greeting_under).1
  have h := Archive.sameEntries_write (f := Entry.disguised)
    (List.forall_mem_singleton.mpr hstorable) (List.forall_mem_singleton.mpr ⟨rfl, rfl⟩)
  exact ⟨h, (extract_of_sameEntries {} h .finished Input.plainSchedule Input.plainSchedule ⟨"out"⟩
    (FileSystem.root 0)).1⟩

end TarGuard
