import TarGuard.Proofs.Codec
import TarGuard.Proofs.Entries
import TarGuard.Proofs.HeaderSize

namespace TarGuard

namespace Archive

inductive Holds (bound : UInt64) (ending : Ending) : List UInt8 → List Entry → Prop
  | ended : ending = .finished → Holds bound ending [] []
  | mark {b rest} : isZero b.bytes → Holds bound ending (Block.bytes b ++ rest) []
  | entry {b h payload pad rest es} : ¬ isZero b.bytes → Header.decode b bound = .ok h →
    payload.length = h.size.toNat → pad.length = (padding h.size).toNat →
    Holds bound ending rest es →
    Holds bound ending (b.bytes ++ payload ++ pad ++ rest) (⟨h, payload⟩ :: es)

inductive Spans (bound : UInt64) : List UInt8 → List Entry → Prop
  | nil : Spans bound [] []
  | cons {b h payload pad rest es} : ¬ isZero (Block.bytes b) → Header.decode b bound = .ok h →
    payload.length = h.size.toNat → pad.length = (padding h.size).toNat → Spans bound rest es →
    Spans bound (b.bytes ++ payload ++ pad ++ rest) (⟨h, payload⟩ :: es)

variable {bound : UInt64} {ending : Ending} {bytes front tail : List UInt8}
  {entries es : List Entry}

theorem Holds.entries? (h : Holds bound ending bytes es) :
    Archive.entries? bound bytes = some es := by
  induction h with
  | ended => exact entries?_nil
  | mark hz => exact entries?_zero hz
  | entry hz hd hs hp _ ih => rw [entries?_cons hz hd hs hp, ih, Option.map_some]

theorem Spans.holds (h : Spans bound front es) (ht : Holds bound ending tail []) :
    Holds bound ending (front ++ tail) es := by
  induction h with
  | nil => exact ht
  | cons hz hd hs hp _ ih =>
    rw [List.append_assoc]
    exact .entry hz hd hs hp ih

theorem Holds.exists_spans (h : Holds bound ending bytes es) :
    ∃ front tail, bytes = front ++ tail ∧ Spans bound front es ∧ Holds bound ending tail [] := by
  induction h with
  | ended he => exact ⟨[], [], rfl, .nil, .ended he⟩
  | mark hz => exact ⟨[], _, rfl, .nil, .mark hz⟩
  | entry hz hd hs hp _ ih =>
    obtain ⟨front, tail, rfl, hf, ht⟩ := ih
    exact ⟨_, tail, (List.append_assoc _ _ _).symm, .cons hz hd hs hp hf, ht⟩

theorem Spans.length_le (h : Spans bound bytes es) : 512 * es.length ≤ bytes.length := by
  induction h with
  | nil => exact Nat.le_refl 0
  | @cons b =>
    simp only [List.length_append, List.length_cons, b.size_eq]
    omega

end Archive

theorem toNat_padding (size : UInt64) :
    (padding size).toNat = (512 - size.toNat % 512) % 512 := by
  have hm : size.toNat % 512 < 512 := Nat.mod_lt _ (by decide)
  rw [padding, UInt64.toNat_mod, UInt64.toNat_sub_of_le, UInt64.toNat_mod]
  · rfl
  · rw [UInt64.le_iff_toNat_le, UInt64.toNat_mod]
    exact Nat.le_of_lt hm

namespace Entry

-- An entry that is stored as it is, apart from the less important fields of its header.
structure Storable (e : Entry) : Prop where
  name    : FieldText.Holds 100 e.header.name
  leading : FieldText.Holds 155 e.header.leading
  size    : e.header.size.toNat < 8 ^ 11
  payload : e.payload.length = e.header.size.toNat

def written (e : Entry) : Entry :=
  ⟨e.header.written, e.payload⟩

theorem payload_written (e : Entry) : e.written.payload = e.payload := rfl

theorem kind_written (e : Entry) : e.written.header.kind = e.header.kind := by
  rw [written, Header.kind_written]

theorem trail_written (e : Entry) : e.written.header.trail = e.header.trail := by
  rw [written, Header.trail, Header.fullPath_written]

theorem dvd_length_bytes (e : Entry) : 512 ∣ e.bytes.length := by
  have hm : (UInt64.ofNat e.payload.length).toNat % 512 = e.payload.length % 512 := by
    rw [UInt64.toNat_ofNat', Nat.mod_mod_of_dvd _ (by decide)]
  rw [bytes, List.length_append, List.length_append, e.header.encode.size_eq, List.length_replicate,
    toNat_padding, hm]
  omega

namespace Storable

variable {e : Entry}

theorem size_written (h : e.Storable) : e.header.written.size = e.header.size := by
  rw [Header.written, Nat.mod_eq_of_lt h.size, UInt64.ofNat_toNat]

theorem length_padding (h : e.Storable) :
    (List.replicate (padding (.ofNat e.payload.length)).toNat (0 : UInt8)).length =
      (padding e.header.written.size).toNat := by
  rw [List.length_replicate, h.payload, UInt64.ofNat_toNat, h.size_written]

theorem length_bytes (h : e.Storable) : e.bytes.length =
    512 + (e.header.written.size.toNat + (padding e.header.written.size).toNat) := by
  rw [bytes, List.length_append, List.length_append, e.header.encode.size_eq, h.length_padding,
    h.payload, h.size_written, Nat.add_assoc]

theorem spans_append {bound : UInt64} {rest : List UInt8} {es : List Entry} (h : e.Storable)
    (hb : e.header.name.length ≤ bound.toNat ∧ e.header.leading.length ≤ bound.toNat)
    (hr : Archive.Spans bound rest es) :
    Archive.Spans bound (e.bytes ++ rest) (e.written :: es) := by
  have hd : Header.decode e.header.encode bound = .ok e.header.written := by
    rw [Header.decode_encode h.name h.leading, if_pos hb]
  exact .cons e.header.not_isZero_encode hd (h.size_written ▸ h.payload) h.length_padding hr

end Storable

end Entry

namespace Archive

def zeroBlock : Block :=
  ⟨List.replicate 512 0, List.length_replicate⟩

theorem isZero_zeroBlock : isZero zeroBlock.bytes := by
  rw [isZero, zeroBlock, List.all_replicate]
  rfl

theorem endMark_eq : endMark = zeroBlock.bytes ++ zeroBlock.bytes := by
  rw [endMark, zeroBlock, List.replicate_append_replicate]

theorem dvd_length_write (entries : List Entry) : 512 ∣ (write entries).length := by
  induction entries with
  | nil =>
    rw [write, List.flatMap_nil, List.nil_append, endMark, List.length_replicate]
    decide
  | cons e es ih =>
    rw [write, List.flatMap_cons, List.append_assoc, List.length_append]
    exact Nat.dvd_add e.dvd_length_bytes ih

theorem head?_write {entries : List Entry} (h : ∀ e ∈ entries, FieldText.Holds 100 e.header.name) :
    (write entries).head? ≠ some 0x1f := by
  cases entries with
  | nil =>
    rw [write, List.flatMap_nil, List.nil_append, endMark_eq]
    decide
  | cons e es =>
    have hne : e.header.encode.bytes ≠ [] := by
      intro he
      have := congrArg List.length he
      rw [e.header.encode.size_eq] at this
      cases this
    rw [write, List.flatMap_cons, Entry.bytes]
    simp only [List.append_assoc, List.head?_append_of_ne_nil _ hne]
    exact Header.head?_encode (h e List.mem_cons_self)

theorem spans_flatMap {bound : UInt64} {entries : List Entry}
    (h : ∀ e ∈ entries, e.Storable ∧ e.header.name.length ≤ bound.toNat ∧
      e.header.leading.length ≤ bound.toNat) :
    Spans bound (entries.flatMap Entry.bytes) (entries.map Entry.written) := by
  induction entries with
  | nil => exact .nil
  | cons e es ih =>
    have ⟨hs, hb⟩ := h e List.mem_cons_self
    have hes := ih fun e he => h e (List.mem_cons_of_mem _ he)
    rw [List.flatMap_cons]
    exact hs.spans_append hb hes

theorem holds_endMark (bound : UInt64) (ending : Ending) : Holds bound ending endMark [] :=
  endMark_eq ▸ .mark isZero_zeroBlock

theorem holds_write {bound : UInt64} (ending : Ending) {entries : List Entry}
    (h : ∀ e ∈ entries, e.Storable ∧ e.header.name.length ≤ bound.toNat ∧
      e.header.leading.length ≤ bound.toNat) :
    Holds bound ending (write entries) (entries.map Entry.written) :=
  (spans_flatMap h).holds (holds_endMark bound ending)

theorem bounds_of_entries? {entries es : List Entry} (h : ∀ e ∈ entries, e.Storable)
    (he : Archive.entries? bound (write entries) = some es) :
    ∀ e ∈ entries, e.header.name.length ≤ bound.toNat ∧ e.header.leading.length ≤ bound.toNat := by
  induction entries generalizing es with
  | nil => exact List.forall_mem_nil _
  | cons e entries ih =>
    have hs := h e List.mem_cons_self
    have hd := Header.decode_encode hs.name hs.leading bound
    rw [write, List.flatMap_cons, List.append_assoc] at he
    by_cases hb : e.header.name.length ≤ bound.toNat ∧ e.header.leading.length ≤ bound.toNat
    case neg =>
      rw [if_neg hb] at hd
      rw [Entry.bytes, List.append_assoc, List.append_assoc,
        entries?_of_error e.header.not_isZero_encode hd] at he
      cases he
    case pos =>
      rw [if_pos hb] at hd
      rw [Entry.bytes, entries?_cons e.header.not_isZero_encode hd (hs.size_written ▸ hs.payload)
        hs.length_padding] at he
      have ⟨es', he', _⟩ := Option.map_eq_some_iff.mp he
      exact List.forall_mem_cons.mpr ⟨hb, ih (fun e he => h e (List.mem_cons_of_mem _ he)) he'⟩

end Archive

theorem Input.AtEnd.holds {s : Input} (h : s.AtEnd) (bound : UInt64) :
    Archive.Holds bound s.ending s.remaining [] := by
  rcases h with ⟨hr, he⟩ | ⟨b, hz, rest, hr⟩
  · rw [hr]
    exact .ended he
  · rw [← hr]
    exact .mark hz

namespace Extractor

variable {x : Extractor} {s t : Session} {base : Location} {root : List String} {es : List Entry}

theorem Completed.spans (h : x.Completed root base es s t) (hj : s.input.joints = []) :
    t.input.ending = s.input.ending ∧
      ∃ front, s.input.remaining = front ++ t.input.remaining ∧
        Archive.Spans x.limits.componentLength front es := by
  induction h with
  | nil => exact ⟨rfl, [], rfl, .nil⟩
  | cons hc _ ih =>
    have ⟨b, pad, hz, hd, hp, hi⟩ := hc.delivers
    have ⟨he, front, hr, hs⟩ := ih (hi.joints.trans hj)
    refine ⟨he.trans hi.ending, _, ?_, .cons hz hd hc.length hp hs⟩
    rw [hi.remaining hj, hr, List.append_assoc _ front]

theorem Completed.holds (h : x.Completed root base es s t) (hj : s.input.joints = [])
    (hl : t.input.AtEnd) :
    Archive.Holds x.limits.componentLength s.input.ending s.input.remaining es := by
  have ⟨he, front, hr, hs⟩ := h.spans hj
  rw [hr, ← he]
  exact hs.holds (hl.holds _)

end Extractor

end TarGuard
