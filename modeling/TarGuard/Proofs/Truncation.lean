import TarGuard.Proofs.Completeness

namespace TarGuard

open FileSystem

namespace Archive

def offset (entries : List Entry) (k : Nat) : Nat :=
  ((entries.take k).flatMap Entry.bytes).length

-- How the extraction of the first `n` bytes of an archive ends, according to where they end:
-- between two entries, behind the first half of the end mark, in a header or in that half, or in a
-- payload or its padding.
inductive CutAt (entries : List Entry) (n : Nat) : Option ExtractError → Prop
  | boundary {k} : k ≤ entries.length → n = offset entries k → CutAt entries n none
  | mark : offset entries entries.length + 512 ≤ n → CutAt entries n none
  | header {k} : k ≤ entries.length → offset entries k < n → n < offset entries k + 512 →
    CutAt entries n (some .invalidHeader)
  | payload {k} : k < entries.length → offset entries k + 512 ≤ n → n < offset entries (k + 1) →
    CutAt entries n (some .readFailed)

variable {entries : List Entry} {e : Entry} {i k n : Nat} {r : Option ExtractError}

theorem offset_zero (entries : List Entry) : offset entries 0 = 0 := by
  simp [offset]

theorem offset_succ (h : entries[k]? = some e) :
    offset entries (k + 1) = offset entries k + e.bytes.length := by
  simp [offset, List.take_add_one, h]

theorem offset_mono (h : i ≤ k) : offset entries i ≤ offset entries k := by
  obtain ⟨d, rfl⟩ := Nat.exists_eq_add_of_le h
  simp [offset, List.take_add]

theorem holds_take_write_nil {bound : UInt64} {ending : Ending} (hn : 512 ≤ n) :
    Holds bound ending ((write []).take n) [] := by
  rw [write, List.flatMap_nil, List.nil_append, endMark_eq, List.take_append,
    List.take_of_length_le (by rw [zeroBlock.size_eq]; exact hn)]
  exact .mark isZero_zeroBlock

theorem exists_cutAt (entries : List Entry) (n : Nat) : ∃ r, CutAt entries n r := by
  have hbelow (k : Nat) (hk : k ≤ entries.length) (hn : n < offset entries k) :
      ∃ r, CutAt entries n r := by
    induction k with
    | zero => simp [offset_zero] at hn
    | succ k ih =>
      by_cases hlt : n < offset entries k
      · exact ih (by omega) hlt
      by_cases heq : n = offset entries k
      · exact ⟨_, .boundary (by omega) heq⟩
      by_cases hheader : n < offset entries k + 512
      · exact ⟨_, .header (by omega) (by omega) hheader⟩
      · exact ⟨_, .payload hk (by omega) hn⟩
  by_cases hlt : n < offset entries entries.length
  · exact hbelow _ (Nat.le_refl _) hlt
  by_cases heq : n = offset entries entries.length
  · exact ⟨_, .boundary (Nat.le_refl _) heq⟩
  by_cases hheader : n < offset entries entries.length + 512
  · exact ⟨_, .header (Nat.le_refl _) (by omega) hheader⟩
  · exact ⟨_, .mark (by omega)⟩

theorem take_write (hk : offset entries k ≤ n) :
    (write entries).take n = (entries.take k).flatMap Entry.bytes ++
      (write (entries.drop k)).take (n - offset entries k) := by
  have hw : write entries = (entries.take k).flatMap Entry.bytes ++ write (entries.drop k) := by
    simp only [write, ← List.append_assoc, ← List.flatMap_append, List.take_append_drop]
  rw [hw, List.take_append, List.take_of_length_le hk]
  rfl

structure Within (entries : List Entry) (n k : Nat) : Prop where
  offset_le : offset entries k ≤ n
  lt        : k < entries.length → n < offset entries (k + 1)

theorem Within.mem_take_iff (h : Within entries n k) :
    e ∈ entries.take k ↔ ∃ i, entries[i]? = some e ∧ offset entries (i + 1) ≤ n := by
  rw [List.mem_iff_getElem?]
  refine exists_congr fun i => ?_
  rw [List.getElem?_take]
  constructor
  case mp =>
    intro he
    by_cases hi : i < k
    · rw [if_pos hi] at he
      exact ⟨he, Nat.le_trans (offset_mono hi) h.offset_le⟩
    · simp [if_neg hi] at he
  case mpr =>
    intro ⟨he, hn⟩
    by_cases hi : i < k
    · rw [if_pos hi, he]
    · have ⟨hlt, _⟩ := List.getElem?_eq_some_iff.mp he
      have := h.lt (by omega)
      have : offset entries (k + 1) ≤ offset entries (i + 1) := offset_mono (by omega)
      omega

theorem le_length_bytes (e : Entry) : 512 ≤ e.bytes.length := by
  simp only [Entry.bytes, List.length_append, e.header.encode.size_eq]
  omega

theorem Within.of_lt (hn : offset entries k ≤ n) (hlt : n < offset entries k + 512) :
    Within entries n k where
  offset_le := hn
  lt hk := by
    have hlen := le_length_bytes entries[k]
    rw [offset_succ (List.getElem?_eq_getElem hk)]
    omega

end Archive

-- The files that are there are those that were there before, and below the destination those of the
-- entries that are complete within the first `n` bytes of an archive.
def Archive.LeavesFiles (entries : List Entry) (n : Nat) (destination : Path)
    (fs fs' : FileSystem) : Prop :=
  ∃ root base, Destination.root fs destination = .ok root ∧ fs'.locate .status root = .ok base ∧
    ∀ l f, fs'.node? l = some (.file f) ↔ fs.node? l = some (.file f) ∨
      ∃ i e, entries[i]? = some e ∧ offset entries (i + 1) ≤ n ∧ e.header.kind = .regular ∧
        l = e.header.trail ++ base ∧ f = ⟨e.payload, 0o600, fs.clock⟩

theorem Limits.Suits.take {l : Limits} {fs : FileSystem} {names : List String} {base : Location}
    {entries : List Entry}
    (ha : l.Suits fs names base ((entries.map Entry.written).map (·.header))) (k : Nat) :
    l.Suits fs names base (((entries.take k).map Entry.written).map (·.header)) := by
  rw [← List.take_append_drop k entries, List.map_append, List.map_append] at ha
  exact ha.of_append

namespace Extractor

open Archive

variable {x : Extractor} {s t u : Session} {names : List String} {base : Location}
  {es entries : List Entry} {n k : Nat} {destination : Path} {fs : FileSystem} {source : Source}
  {bytes : List UInt8}

theorem leavesFiles {new : Location → Node → Prop} {fs' : FileSystem}
    (hb : Begins source destination fs names base s)
    (hc : x.Completed names base ((entries.take k).map Entry.written) s u)
    (hw : Within entries n k) (g : Grows new u.files fs')
    (hd : ∀ l node, new l node → node.isDirectory) :
    LeavesFiles entries n destination fs fs' := by
  refine ⟨pathTo names, base, hb.root, ((hc.leads hb.leads).grows g).locate, fun l f => ?_⟩
  rw [hb.file_iff hc g hd]
  refine or_congr_right ⟨?_, ?_⟩
  · intro ⟨_, hm, hk, hl, hf⟩
    obtain ⟨e, he, rfl⟩ := List.mem_map.mp hm
    rw [e.kind_written] at hk
    rw [e.trail_written] at hl
    rw [e.payload_written] at hf
    have ⟨i, hi, hn⟩ := hw.mem_take_iff.mp he
    exact ⟨i, e, hi, hn, hk, hl, hf⟩
  · intro ⟨i, e, hi, hn, hk, hl, hf⟩
    refine ⟨e.written, List.mem_map_of_mem (hw.mem_take_iff.mpr ⟨i, hi, hn⟩), ?_, ?_, ?_⟩
    · rw [e.kind_written, hk]
    · rw [e.trail_written, hl]
    · rw [e.payload_written, hf]
      rfl

section Cut

variable (hx : x.Undisturbed) (hs : ∀ e ∈ entries, e.Storable)
  (hbounds : ∀ e ∈ entries, e.header.name.length ≤ x.limits.componentLength.toNat ∧
    e.header.leading.length ≤ x.limits.componentLength.toNat)
  (hb : Begins source destination fs names base s)
  (ha : x.limits.Suits s.files names base ((entries.map Entry.written).map (·.header)))

include hx hs hbounds hb ha

theorem passes_front {rest : List UInt8} {ending : Ending}
    (hi : s.input.Supplies ((entries.take k).flatMap Entry.bytes ++ rest) ending) :
    ∃ u, x.records (pathTo names) s = x.records (pathTo names) u ∧
      x.Completed names base ((entries.take k).map Entry.written) s u ∧
      u.input.Supplies rest ending := by
  have hspans : Spans x.limits.componentLength ((entries.take k).flatMap Entry.bytes)
      ((entries.take k).map Entry.written) :=
    spans_flatMap fun e he =>
      ⟨hs e (List.mem_of_mem_take he), hbounds e (List.mem_of_mem_take he)⟩
  have ⟨u, hp, hc, hu⟩ :=
    passes_suited hx hb.leads hb.seen hb.summary (.nil s) hspans hi (ha.take k)
  exact ⟨u, records_of_passes hp, hc, hu⟩

theorem passes_take (hi : s.input.Supplies ((write entries).take n) .finished)
    (hk : offset entries k ≤ n) :
    ∃ u, x.records (pathTo names) s = x.records (pathTo names) u ∧
      x.Completed names base ((entries.take k).map Entry.written) s u ∧
      u.input.Supplies ((write (entries.drop k)).take (n - offset entries k)) .finished := by
  rw [take_write hk] at hi
  exact passes_front hx hs hbounds hb ha hi

theorem record_cut_payload (hc : x.Completed names base ((entries.take k).map Entry.written) s u)
    (hk : k < entries.length)
    (hu : u.input.Supplies ((write (entries.drop k)).take (n - offset entries k)) .finished)
    (hn : offset entries k + 512 ≤ n) (hlt : n < offset entries (k + 1)) :
    ∃ t, x.record (pathTo names) u = .error .readFailed t := by
  generalize he : entries[k] = e
  have hm : e ∈ entries := he ▸ List.getElem_mem hk
  have hd : Header.decode e.header.encode x.limits.componentLength = .ok e.header.written := by
    rw [Header.decode_encode (hs e hm).name (hs e hm).leading, if_pos (hbounds e hm)]
  have hdrop : entries.drop k = e :: entries.drop (k + 1) := he ▸ List.drop_eq_getElem_cons hk
  have hsuits : x.limits.Suits s.files names base (((entries.take k).map Entry.written ++
      e.written :: (entries.drop (k + 1)).map Entry.written).map (·.header)) := by
    rw [← List.map_cons, ← hdrop, ← List.map_append, List.take_append_drop]
    exact ha
  have ⟨hcheck, hr, hplace⟩ := hc.ready hb.leads hb.seen hb.summary hsuits
  rw [offset_succ (List.getElem?_eq_getElem hk), he, (hs e hm).length_bytes] at hlt
  have hblock : e.header.encode.bytes.length ≤ n - offset entries k := by
    rw [e.header.encode.size_eq]
    omega
  rw [hdrop, Archive.write, List.flatMap_cons, Entry.bytes, List.append_assoc, List.append_assoc,
    List.append_assoc, List.take_append, List.take_of_length_le hblock] at hu
  exact record_starved hx hu e.header.not_isZero_encode hd (hc.leads hb.leads) hcheck hr hplace
    (by rw [List.length_take, e.header.encode.size_eq]; omega)

omit hs hbounds hb ha in
theorem record_cut_header (root : Path) (hu : u.input.Supplies ((write entries).take n) .finished)
    (hpos : 0 < n) (hlt : n < 512) : ∃ t, x.record root u = .error .invalidHeader t := by
  have hlen : 1024 ≤ (write entries).length := by
    rw [Archive.write, List.length_append, endMark, List.length_replicate]
    omega
  have hne : (write entries).take n ≠ [] := by
    rw [← List.length_pos_iff, List.length_take]
    omega
  obtain ⟨input, hread⟩ := hu.readRecord_short hne (by rw [List.length_take]; omega)
  refine ⟨{ u with input := input }, ?_⟩
  rw [record, bind_of_ok (checkCancelled_of_none hx.uncancelled u),
    bind_of_error (Extraction.onInput_of_error hread)]

theorem cut_of_end (hi : s.input.Supplies ((write entries).take n) .finished)
    (hw : Within entries n k)
    (hend : Holds x.limits.componentLength .finished
      ((write (entries.drop k)).take (n - offset entries k)) []) :
    Ends (x.extract source destination) fs
      (fun _ fs' => LeavesFiles entries n destination fs fs') (fun _ _ => False) := by
  have ⟨u, hrec, hc, hu⟩ := passes_take hx hs hbounds hb ha hi hw.offset_le
  have ⟨t, ht, hf, _⟩ := records_ended hx.uncancelled (hc.leads hb.leads) hu hend
  have g : Grows (fun _ _ => False) u.files t.files := by
    rw [hf]
    exact Grows.refl u.files
  exact Ends.of_eq (hb.extract_of_ok (hrec.trans ht)) (leavesFiles hb hc hw g nofun)

end Cut

theorem cut_of_error {e : ExtractError} (hb : Begins source destination fs names base s)
    (hw : Within entries n k) (hrec : x.records (pathTo names) s = x.records (pathTo names) u)
    (hc : x.Completed names base ((entries.take k).map Entry.written) s u)
    (ht : x.record (pathTo names) u = .error e t) :
    x.extract source destination fs = .error e t.files ∧
      LeavesFiles entries n destination fs t.files := by
  have ⟨g, _⟩ := (record_ends x (hc.leads hb.leads)).of_error ht
  refine ⟨hb.extract_of_error (hrec.trans (records_of_error ht)), leavesFiles hb hc hw g ?_⟩
  exact fun _ _ ⟨_, _, hleft⟩ => hleft.isDirectory

-- An archive that can be extracted as a whole may be cut off anywhere. All entries that are
-- complete are extracted then, no other file is left, and the end of the extraction is the one for
-- the cut.
theorem extract_take (limits : Limits) (hs : ∀ e ∈ entries, e.Storable) {ending : Ending}
    {schedule : Schedule} {summary : Summary} {fs₀ : FileSystem}
    (h : Extractor.extract { limits := limits } (.reader (write entries) ending schedule)
      destination fs = .ok summary fs₀) (n : Nat) (schedule' : Schedule) :
    (∃ r, CutAt entries n r) ∧
    ∀ r, CutAt entries n r →
      Ends (Extractor.extract { limits := limits }
          (.reader ((write entries).take n) .finished schedule') destination) fs
        (fun _ fs' => r = none ∧ LeavesFiles entries n destination fs fs')
        (fun e fs' => r = some e ∧ LeavesFiles entries n destination fs fs') := by
  refine ⟨exists_cutAt entries n, fun r hr => ?_⟩
  have ⟨hbounds, names, base, s, t, hb, hc, _⟩ := extract_write_completed hs h
  have ha := hc.suits hb.seen hb.summary
  let input : Input :=
    { remaining := (write entries).take n, ending := .finished, schedule := schedule' }
  have hb : Begins (.reader ((write entries).take n) .finished schedule') destination fs names base
      { s with input := input } := hb.reopen rfl
  have hi : input.Supplies ((write entries).take n) .finished := ⟨rfl, rfl, rfl⟩
  -- Wherever the cut is, the entries before it are complete, and the run gets through them.
  cases hr with
  | @boundary k hk hn =>
    have hw : Within entries n k := .of_lt (by omega) (by omega)
    have hend : Holds limits.componentLength .finished
        ((write (entries.drop k)).take (n - offset entries k)) [] := by
      rw [hn, Nat.sub_self]
      exact .ended rfl
    exact (cut_of_end (.of_limits limits) hs hbounds hb ha hi hw hend).imp
      (fun _ _ h => ⟨rfl, h⟩) nofun
  | mark hn =>
    have hw : Within entries n entries.length :=
      ⟨by omega, fun hlt => absurd hlt (Nat.lt_irrefl _)⟩
    have hend : Holds limits.componentLength .finished
        ((write (entries.drop entries.length)).take (n - offset entries entries.length)) [] := by
      rw [List.drop_length]
      exact holds_take_write_nil (by omega)
    exact (cut_of_end (.of_limits limits) hs hbounds hb ha hi hw hend).imp
      (fun _ _ h => ⟨rfl, h⟩) nofun
  | @header k hk hn hlt =>
    have hw : Within entries n k := .of_lt (by omega) hlt
    have ⟨u, hrec, hc, hu⟩ := passes_take (.of_limits limits) hs hbounds hb ha hi hw.offset_le
    have ⟨t, ht⟩ :=
      record_cut_header (.of_limits limits) (pathTo names) hu (by omega) (by omega)
    have ⟨hext, hleaves⟩ := cut_of_error hb hw hrec hc ht
    exact Ends.of_eq_error hext ⟨rfl, hleaves⟩
  | @payload k hk hn hlt =>
    have hw : Within entries n k := ⟨by omega, fun _ => hlt⟩
    have ⟨u, hrec, hc, hu⟩ := passes_take (.of_limits limits) hs hbounds hb ha hi hw.offset_le
    have ⟨t, ht⟩ := record_cut_payload (.of_limits limits) hs hbounds hb ha hc hk hu hn hlt
    have ⟨hext, hleaves⟩ := cut_of_error hb hw hrec hc ht
    exact Ends.of_eq_error hext ⟨rfl, hleaves⟩

end Extractor

theorem Archive.offset_docs_nested :
    offset [Entry.docs, Entry.nested] 1 = 512 ∧ offset [Entry.docs, Entry.nested] 2 = 2048 := by
  have ⟨hdocs, hnested⟩ := List.forall_mem_cons.mp Entry.storable_docs_nested
  have hnested := List.forall_mem_singleton.mp hnested
  have h₁ : offset [Entry.docs, Entry.nested] 1 = 512 := by
    rw [offset_succ (k := 0) rfl, offset_zero, hdocs.length_bytes]
    rfl
  refine ⟨h₁, ?_⟩
  rw [offset_succ (k := 1) rfl, h₁, hnested.length_bytes]
  rfl

theorem Extractor.extract_take_docs :
    ∃ fs', Extractor.extract {} (.reader ((Archive.write [Entry.docs, Entry.nested]).take 1100)
        .finished Input.plainSchedule) ⟨"out"⟩ (FileSystem.root 0) = .error .readFailed fs' ∧
      Archive.LeavesFiles [Entry.docs, Entry.nested] 1100 ⟨"out"⟩ (FileSystem.root 0) fs' := by
  have ⟨h₁, h₂⟩ := Archive.offset_docs_nested
  have ⟨summary, fs₀, h⟩ := extract_docs_nested .finished Input.plainSchedule
  have ⟨_, hends⟩ := extract_take {} Entry.storable_docs_nested h 1100 Input.plainSchedule
  have hcut : Archive.CutAt [Entry.docs, Entry.nested] 1100 (some .readFailed) :=
    .payload (k := 1) (by decide) (by omega) (Nat.lt_of_lt_of_eq (by decide) h₂.symm)
  have hends := hends _ hcut
  cases hx : Extractor.extract {} (.reader ((Archive.write [Entry.docs, Entry.nested]).take 1100)
    .finished Input.plainSchedule) ⟨"out"⟩ (FileSystem.root 0) with
  | ok summary fs' => cases (hends.of_ok hx).1
  | error e fs' =>
    have ⟨he, hleaves⟩ := hends.of_error hx
    cases he
    exact ⟨fs', rfl, hleaves⟩

end TarGuard
