import TarGuard.Proofs.Consistency
import TarGuard.Proofs.Simulation

namespace TarGuard

open FileSystem Extraction

namespace Limits

instance : LE Limits where
  le l l' := ∀ field : Field, l.get field ≤ l'.get field

variable {l l' : Limits} {seen used size : UInt64}

theorem left_mono (h : l ≤ l') (used : UInt64) : l.left used ≤ l'.left used := by
  have htotal : l.totalSize ≤ l'.totalSize := h .totalSize
  by_cases hu : used ≤ l.totalSize
  case neg =>
    rw [left, if_neg hu]
    exact UInt64.zero_le
  case pos =>
    have hu' := UInt64.le_trans hu htotal
    rw [left, left, if_pos hu, if_pos hu', UInt64.le_iff_toNat_le, UInt64.toNat_sub_of_le _ _ hu,
      UInt64.toNat_sub_of_le _ _ hu']
    exact Nat.sub_le_sub_right (UInt64.le_iff_toNat_le.mp htotal) _

theorem check_eq_ok_iff :
    l.check seen used size = .ok () ↔ seen ≤ l.files ∧ size ≤ l.fileSize ∧ size ≤ l.left used := by
  simp only [check, ← UInt64.not_lt]
  split
  · simp [*]
  · split
    · simp [*]
    · split <;> simp [*]

theorem check_mono (h : l ≤ l') (hc : l.check seen used size = .ok ()) :
    l'.check seen used size = .ok () := by
  rw [check_eq_ok_iff] at *
  have ⟨hf, hs, hl⟩ := hc
  exact ⟨UInt64.le_trans hf (h .files), UInt64.le_trans hs (h .fileSize),
    UInt64.le_trans hl (left_mono h used)⟩

end Limits

theorem FieldText.read?_mono {bound bound' : UInt64} (h : bound ≤ bound') {field : List UInt8}
    {s : String} (hs : read? field bound = some s) : read? field bound' = some s := by
  unfold read? at *
  simp only [Option.ite_none_right_eq_some] at *
  exact ⟨⟨Nat.le_trans hs.1.1 (UInt64.le_iff_toNat_le.mp h), hs.1.2⟩, hs.2⟩

theorem Header.decode_mono {bound bound' : UInt64} (h : bound ≤ bound') {b : Block} {e : Header}
    (hd : decode b bound = .ok e) : decode b bound' = .ok e := by
  unfold decode at hd ⊢
  split at hd
  case isFalse => cases hd
  case isTrue hc =>
    split at hd
    case h_2 => cases hd
    case h_1 name leading hn hl =>
      rw [if_pos hc, FieldText.read?_mono h hn, FieldText.read?_mono h hl]
      exact hd

namespace EntryPath

variable {l l' : Limits}

theorem isSafeComponent_mono {bound bound' : UInt64} (h : bound ≤ bound') {c : String}
    (hc : IsSafeComponent bound c) : IsSafeComponent bound' c :=
  ⟨hc.1, Nat.le_trans hc.2.1 (UInt64.le_iff_toNat_le.mp h), hc.2.2⟩

theorem components_mono (h : l ≤ l') {path : String} {names : List String}
    (hc : components l path = .ok names) : components l' path = .ok names := by
  unfold components at *
  split at hc
  case isFalse => cases hc
  case isTrue ha =>
    have ⟨hne, hlength, hprintable, hsuspicious, hdepth, hsafe⟩ := ha
    rw [if_pos]
    · exact hc
    · refine ⟨hne, ?_, hprintable, hsuspicious, ?_, ?_⟩
      · exact Nat.le_trans hlength (UInt64.le_iff_toNat_le.mp (h .pathLength))
      · exact Nat.le_trans hdepth (UInt64.le_iff_toNat_le.mp (h .pathDepth))
      · exact fun c hm => isSafeComponent_mono (h .componentLength) (hsafe c hm)

theorem resolve_mono (h : l ≤ l') {root target : Path} {path : String}
    (hr : resolve l root path = .ok target) : resolve l' root path = .ok target := by
  rw [resolve] at *
  cases hc : components l path with
  | ok names =>
    rw [hc] at hr
    rw [components_mono h hc]
    exact hr
  | error e =>
    rw [hc] at hr
    cases hr

end EntryPath

namespace Extractor

variable {x y : Extractor} {root target : Path}

theorem checkCancelled_congr (h : x.cancelAfter = y.cancelAfter) :
    x.checkCancelled = y.checkCancelled := by
  rw [checkCancelled, checkCancelled, h]

-- What is done with an entry does not depend on the limits.
section SameStop

variable (h : x.cancelAfter = y.cancelAfter) (hf : x.failure? = y.failure?)

include h hf

theorem copyPayload_congr (file : OutputFile) (left : Nat) :
    x.copyPayload file left = y.copyPayload file left := by
  induction left using copyPayload.induct with
  | case1 => rw [copyPayload_zero, copyPayload_zero]
  | case2 left hl ih =>
    simp only [copyPayload_eq hl, copyChunk, checkCancelled_congr h, onOutput_congr hf, ih]

theorem dispatch_congr (root target : Path) (e : Header) :
    x.dispatch root target e = y.dispatch root target e := by
  have hfill (file : OutputFile) (size : UInt64) : x.fillFile file size = y.fillFile file size := by
    rw [fillFile, fillFile, copyPayload_congr h hf]
  have hwrite : x.writeFile = y.writeFile := by
    funext root target size
    simp only [writeFile, hfill, onOutput_congr hf]
  rw [dispatch, dispatch, hwrite]

end SameStop

structure Stricter (x y : Extractor) : Prop where
  limits   : x.limits ≤ y.limits
  stop     : x.cancelAfter = y.cancelAfter
  failure? : x.failure? = y.failure?

variable (h : x.Stricter y)

include h

theorem entry_mono (root : Path) (e : Header) : Simulates Eq (x.entry root e) (y.entry root e) := by
  have hlimits : Simulates Eq (x.enforceLimits e.size) (y.enforceLimits e.size) :=
    .bind (.refl _) fun _ => .bind (.refl _) fun s => .require fun ⟨⟩ => Limits.check_mono h.limits
  refine .bind hlimits fun _ => .bind (.require fun _ => EntryPath.resolve_mono h.limits) ?_
  intro target
  rw [dispatch_congr h.stop h.failure?]
  exact .refl _

theorem record_mono (root : Path) : Simulates Eq (x.record root) (y.record root) := by
  rw [record, record, checkCancelled_congr h.stop]
  refine .bind (.refl _) fun _ => .bind (.refl _) fun o => ?_
  cases o with
  | none => exact .refl _
  | some b =>
    have hd : x.limits.componentLength ≤ y.limits.componentLength := h.limits .componentLength
    refine .bind (.require fun _ => Header.decode_mono hd) fun e => ?_
    exact .bind (entry_mono h root e) fun _ => .refl _

theorem records_mono {s t : Session} (hx : x.records root s = .ok () t) :
    y.records root s = .ok () t := by
  induction s using records.induct x root with
  | case1 s u hu ih =>
    rw [records_of_next hu] at hx
    rw [records_of_next ((record_mono h root).eq_ok hu)]
    exact ih hx
  | case2 s u hu =>
    rw [records_of_end hu] at hx
    rw [records_of_end ((record_mono h root).eq_ok hu)]
    exact hx
  | case3 s e u hu => cases (records_of_error hu).symm.trans hx

theorem extract_mono {source : Source} {destination : Path} {fs fs' : FileSystem}
    {summary : Summary} (hx : x.extract source destination fs = .ok summary fs') :
    y.extract source destination fs = .ok summary fs' := by
  rcases extract_or_begins source destination fs with ⟨e, _, he⟩ | ⟨names, base, s, hb⟩
  · cases (he x).symm.trans hx
  · cases hr : x.records (pathTo names) s with
    | ok _ t =>
      rw [hb.extract_of_ok (records_mono h hr), ← hx, hb.extract_of_ok hr]
    | error e t => cases (hb.extract_of_error hr).symm.trans hx

end Extractor

namespace Listing

variable {l l' : Limits} (h : l ≤ l')

include h

theorem header_mono (count : UInt64) (b : Block) : Simulates Eq (header l count b) (header l' count b) := by
  refine .bind (.require fun e he => ?_) fun _ => .refl _
  split at he
  case isTrue => cases he
  case isFalse hn =>
    have hn' : ¬ count ≥ l'.files := fun hle => hn (UInt64.le_trans (h .files) hle)
    rw [if_neg hn']
    exact Header.decode_mono (h .componentLength) he

theorem headers_mono {count : UInt64} {s : Input} {hs : List Header}
    (hh : headers l count s = .ok hs) : headers l' count s = .ok hs := by
  induction count, s using headers.induct l generalizing hs with
  | case1 count s e t hr => cases (headers_of_error hr).symm.trans hh
  | case2 count s t hr =>
    rw [headers_of_end hr] at *
    exact hh
  | case3 count s b t hr e u hu => cases (headers_of_refused hr hu).symm.trans hh
  | case4 count s b t hr a u hu ih =>
    rw [headers_of_header hr hu] at hh
    rw [headers_of_header hr ((header_mono h count b).eq_ok hu)]
    cases hrest : headers l (count + 1) u with
    | ok rest => rw [ih hrest, ← hrest, hh]
    | error e =>
      rw [hrest] at hh
      cases hh

theorem ofFile_mono {fs : FileSystem} {archive : Path} {decoder : Input.Decoder} {hs : List Header}
    (hh : ofFile fs archive l decoder = .ok hs) : ofFile fs archive l' decoder = .ok hs := by
  rw [ofFile] at *
  cases ho : Input.openFile fs archive decoder with
  | ok input =>
    rw [ho] at hh
    exact headers_mono h hh
  | error e =>
    rw [ho] at hh
    cases hh

end Listing

theorem Limits.success_mono {l l' : Limits} (h : l ≤ l') (x : Extractor) :
    (∀ source destination fs summary fs',
      Extractor.extract { x with limits := l } source destination fs = .ok summary fs' →
        Extractor.extract { x with limits := l' } source destination fs = .ok summary fs') ∧
    ∀ fs archive decoder hs, Listing.ofFile fs archive l decoder = .ok hs →
      Listing.ofFile fs archive l' decoder = .ok hs := by
  have hx : Extractor.Stricter { x with limits := l } { x with limits := l' } := ⟨h, rfl, rfl⟩
  exact ⟨fun _ _ _ _ _ => Extractor.extract_mono hx, fun _ _ _ _ => Listing.ofFile_mono h⟩

def Limits.largest : Limits :=
  .ofFields fun _ => -1

theorem Limits.le_largest (l : Limits) : l ≤ largest := by
  intro field
  rw [UInt64.le_iff_toNat_le]
  have hmax : (largest.get field).toNat = UInt64.size - 1 := by cases field <;> rfl
  have hlt := (l.get field).toNat_lt_size
  omega

theorem Limits.success_mono_docs :
    ({} : Limits) ≤ largest ∧
    (∃ summary fs', Extractor.extract { limits := largest }
      (.reader (Archive.write [Entry.docs, Entry.nested]) .finished Input.plainSchedule) ⟨"out"⟩
      (FileSystem.root 0) = .ok summary fs') ∧
    ∃ hs, Listing.ofFile (FileSystem.tar [Entry.docs, Entry.nested]) (pathTo ["a.tar"]) largest =
      .ok hs := by
  have hle := le_largest {}
  have ⟨hextract, hlist⟩ := success_mono hle {}
  have ⟨summary, fs', h⟩ := Extractor.extract_docs_nested .finished Input.plainSchedule
  have ⟨hs, ht⟩ := Listing.ofFile_tar (l := {}) Entry.storable_docs_nested (by decide) (by decide)
  exact ⟨hle, ⟨summary, fs', hextract _ _ _ _ _ h⟩, hs, hlist _ _ _ _ ht⟩

end TarGuard
