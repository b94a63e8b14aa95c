import TarGuard.Proofs.Listing
import TarGuard.Proofs.Suitability
import TarGuard.Proofs.Vacancy

namespace TarGuard

open FileSystem SecureDirectory EntryPath

def Header.FitsBelow (names : List String) (h : Header) : Prop :=
  ∀ name above, name :: above <:+ h.trail → Fits (above ++ names) name

theorem Limits.Admits.suits {l : Limits} {fs : FileSystem} {names : List String} {base : Location}
    {hs : List Header} (ha : l.Admits hs) (hempty : ∀ n, fs.node? (n :: base) = none)
    (hfit : ∀ h ∈ hs, h.FitsBelow names) : l.Suits fs names base hs where
  files n hn := by
    have hle := ha.files
    have hlt := l.files.toNat_lt
    rw [UInt64.le_iff_toNat_le, UInt64.toNat_ofNat', Nat.mod_eq_of_lt (by omega)]
    omega
  fileSize := ha.fileSize
  totalSize := ha.totalSize
  accepted := ha.accepted
  place h hm := by
    have hnone {q : Location} (hq : q ≠ []) : fs.node? (q ++ base) = none := by
      apply node?_of_suffix (hempty (q.getLast hq))
      rw [← List.singleton_append]
      exact List.suffix_append_self_iff.mpr ⟨q.dropLast, List.dropLast_concat_getLast hq⟩
    have hclear : IsClear fs names base h.trail := fun name above hs =>
      ⟨hfit h hm name above hs, .inl (hnone (List.cons_ne_nil name above))⟩
    have hlink := ha.no_link h hm
    cases hk : h.kind with
    | directory => exact .directory hk hclear
    | regular => exact .regular hk hclear (hnone (trail_ne_nil h.fullPath))
    | hardLink => exact absurd hk hlink.1
    | symbolicLink => exact absurd hk hlink.2
    | other => exact .other hk
  apart := ha.apart

section Empty

variable {x : Extractor} {source : Source} {input : Input} {destination : Path}
  {fs fs₁ : FileSystem} {names : List String} {name : String} {base : Location} {es : List Entry}
  (hx : x.Undisturbed) (ho : source.open fs = .ok input)
  (hh : Archive.Holds x.limits.componentLength input.ending input.remaining es)
  (ha : x.limits.Admits (es.map (·.header)))

include hx ho hh ha

theorem Extractor.extract_prepared
    (hroot : Destination.root fs destination = .ok (pathTo names))
    (hp : Destination.prepare (pathTo names) fs = .ok () fs₁) (hl : fs₁.Leads names base)
    (hempty : ∀ s, fs₁.node? (s :: base) = none)
    (hfit : ∀ e ∈ es, e.header.FitsBelow names) :
    ∃ summary fs', x.extract source destination fs = .ok summary fs' ∧
      x.HasEffect names base es fs₁ fs' summary := by
  have hb := Begins.of_prepare ho hroot hp hl
  have ⟨_, hc, h⟩ := extract_of_suits hx hb hh (ha.suits hempty (List.forall_mem_map.mpr hfit))
  exact ⟨_, _, h, hc.hasEffect hb.seen hb.summary⟩

theorem Extractor.extract_of_admits
    (hroot : Destination.root fs destination = .ok (pathTo names)) (hv : fs.IsVacant names base)
    (ht : (pathTo names).text.utf8ByteSize ≤ maxPathBytes)
    (hfit : ∀ e ∈ es, e.header.FitsBelow names) :
    ∃ summary fs', x.extract source destination fs = .ok summary fs' := by
  have ⟨fs₁, hp, hl, hempty⟩ := Destination.prepare_of_isVacant hv ht
  have ⟨summary, fs', h, _⟩ := extract_prepared hx ho hh ha hroot hp hl hempty hfit
  exact ⟨summary, fs', h⟩

theorem Extractor.extract_new
    (hroot : Destination.root fs destination = .ok (pathTo (name :: names)))
    (hplace : fs.HasPlaceFor name names base)
    (hfit : ∀ e ∈ es, e.header.FitsBelow (name :: names)) :
    ∃ summary fs', x.extract source destination fs = .ok summary fs' ∧
      x.HasEffect (name :: names) (name :: base) es
        (fs.put (name :: base) (.directory defaultDirectoryMode)) fs' summary :=
  have ⟨hl, hempty⟩ := hplace.leads_new
  extract_prepared hx ho hh ha hroot (Destination.prepare_new hplace) hl hempty hfit

end Empty

theorem Extractor.extract_onto_file {x : Extractor} {source : Source} {destination : Path}
    {fs : FileSystem} {name : String} {above : List String} {loc : Location} {f : File}
    (hl : fs.Leads above loc) (hn : IsFileName name)
    (hf : fs.node? (name :: loc) = some (.file f))
    (hroot : Destination.root fs destination = .ok (pathTo (name :: above))) :
    ¬ ∃ summary fs', x.extract source destination fs = .ok summary fs' := by
  rintro ⟨summary, fs', hx⟩
  obtain ⟨names, base, s, -, -, hb, -⟩ := extract_completed hx
  have ho := isOrdinary_of_isFileName hn
  cases pathTo_injective hb.leads.ordinary (hl.ordinary.cons ho)
    (Except.ok.inj (hb.root.symm.trans hroot))
  have hkept := hb.grows.kept hf
  have hlocate : s.files.locate .status (pathTo (name :: above)) = _ :=
    (hl.grows hb.grows).locate_last ho hn.2.2.2.2.1 fun _ t ht => by cases hkept.symm.trans ht
  rw [hb.leads.locate] at hlocate
  split at hlocate
  case isTrue =>
    cases hlocate
    obtain ⟨_, hm⟩ := isDirectory_iff.mp hb.leads.isDirectory
    cases hkept.symm.trans hm
  case isFalse => cases hlocate

namespace Entry.Storable

variable {e : Entry} {names : List String} {s : String}

theorem utf8ByteSize_of_mem_split (h : e.Storable) (hs : s ∈ split e.header.fullPath) :
    s.utf8ByteSize ≤ 255 := by
  have hname := h.name.utf8ByteSize_le
  have hleading := h.leading.utf8ByteSize_le
  by_cases hl : e.header.leading = ""
  case pos =>
    have hpath : e.header.fullPath = e.header.name := if_pos hl
    have := EntryPath.utf8ByteSize_of_mem_split (hpath ▸ hs)
    omega
  case neg =>
    have hpath : e.header.fullPath = e.header.leading ++ "/" ++ e.header.name := if_neg hl
    have hsize : e.header.fullPath.utf8ByteSize =
        e.header.leading.utf8ByteSize + 1 + e.header.name.utf8ByteSize := by
      rw [hpath, String.utf8ByteSize_append, String.utf8ByteSize_append]
      rfl
    have hslash : '/' ∈ e.header.fullPath.toList := by simp [hpath]
    have := utf8ByteSize_lt_of_mem_split hs hslash
    omega

theorem fitsBelow (h : e.Storable)
    (hroom : (pathTo names).text.utf8ByteSize + 1 + e.header.fullPath.utf8ByteSize ≤ maxPathBytes) :
    e.written.header.FitsBelow names := by
  intro name above hs
  rw [e.trail_written] at hs
  have hm : name ∈ split e.header.fullPath :=
    List.mem_reverse.mp (hs.subset List.mem_cons_self)
  have hle : (pathTo (name :: above ++ names)).text.utf8ByteSize ≤ _ :=
    utf8ByteSize_pathTo_of_suffix hs
  exact ⟨Nat.le_trans hle hroom, h.utf8ByteSize_of_mem_split hm⟩

end Entry.Storable

theorem Limits.admits_written_iff {l : Limits} {entries : List Entry}
    (h : ∀ e ∈ entries, e.Storable) :
    l.Admits ((entries.map Entry.written).map (·.header)) ↔ l.Admits (entries.map (·.header)) := by
  have hmap : (entries.map Entry.written).map (·.header) =
      (entries.map (·.header)).map Header.written := by
    rw [List.map_map, List.map_map]
    rfl
  rw [hmap]
  refine l.admits_map_iff (List.forall_mem_map.mpr fun e he => ?_)
  exact ⟨(h e he).size_written, Header.kind_written, Header.fullPath_written⟩

section Write

variable {x : Extractor} {entries : List Entry} {names : List String} {base : Location}
  {destination : Path} {fs : FileSystem} (hx : x.Undisturbed)
  (hs : ∀ e ∈ entries, e.Storable)
  (hroot : Destination.root fs destination = .ok (pathTo names)) (hv : fs.IsVacant names base)
  (ht : (pathTo names).text.utf8ByteSize ≤ maxPathBytes)
  (hroom : ∀ e ∈ entries,
    (pathTo names).text.utf8ByteSize + 1 + e.header.fullPath.utf8ByteSize ≤ maxPathBytes)

include hx hs hroot hv ht hroom

theorem Extractor.extract_write_of_admits
    (hb : ∀ e ∈ entries, e.header.name.length ≤ x.limits.componentLength.toNat ∧
      e.header.leading.length ≤ x.limits.componentLength.toNat)
    (ha : x.limits.Admits (entries.map (·.header))) (ending : Ending) (schedule : Schedule) :
    ∃ summary fs', x.extract (.reader (Archive.write entries) ending schedule) destination fs =
      .ok summary fs' := by
  have hh := Archive.holds_write ending fun e he => ⟨hs e he, hb e he⟩
  refine extract_of_admits hx rfl hh ((Limits.admits_written_iff hs).mpr ha) hroot hv ht ?_
  exact List.forall_mem_map.mpr fun e he => (hs e he).fitsBelow (hroom e he)

end Write

-- An archive that was written is extracted to a place that is not there yet or empty if the headers
-- are admitted and their names are short enough, and in no other case.
theorem Extractor.extract_write_iff {x : Extractor} {entries : List Entry} {names : List String}
    {base : Location} {destination : Path} {fs : FileSystem} (hx : x.Undisturbed)
    (hf : x.limits.files.toNat + 1 < UInt64.size) (hs : ∀ e ∈ entries, e.Storable)
    (hroot : Destination.root fs destination = .ok (pathTo names)) (hv : fs.IsVacant names base)
    (ht : (pathTo names).text.utf8ByteSize ≤ maxPathBytes)
    (hroom : ∀ e ∈ entries,
      (pathTo names).text.utf8ByteSize + 1 + e.header.fullPath.utf8ByteSize ≤ maxPathBytes)
    (ending : Ending) (schedule : Schedule) :
    (∃ summary fs', x.extract (.reader (Archive.write entries) ending schedule) destination fs =
      .ok summary fs') ↔
    (∀ e ∈ entries, e.header.name.length ≤ x.limits.componentLength.toNat ∧
      e.header.leading.length ≤ x.limits.componentLength.toNat) ∧
    x.limits.Admits (entries.map (·.header)) := by
  constructor
  case mp =>
    intro ⟨summary, fs', h⟩
    have ⟨hb, names, base, s, t, hbegins, hc, _⟩ := extract_write_completed hs h
    have ha := (hc.suits hbegins.seen hbegins.summary).admits hf
    exact ⟨hb, (Limits.admits_written_iff hs).mp ha⟩
  case mpr =>
    intro ⟨hb, ha⟩
    exact extract_write_of_admits hx hs hroot hv ht hroom hb ha ending schedule

theorem Extractor.extract_write_of_length_lt {x : Extractor} {entries : List Entry}
    (hf : x.limits.files.toNat + 1 < UInt64.size) (hs : ∀ e ∈ entries, e.Storable)
    (hl : x.limits.files.toNat < entries.length) (ending : Ending) (schedule : Schedule)
    (destination : Path) (fs : FileSystem) :
    ∃ e fs', x.extract (.reader (Archive.write entries) ending schedule) destination fs =
      .error e fs' := by
  cases hx : x.extract (.reader (Archive.write entries) ending schedule) destination fs with
  | ok summary fs' =>
    have ⟨_, _, _, _, _, hb, hc, _⟩ := extract_write_completed hs hx
    have ⟨hle, heq⟩ := hc.seen_of_start hf hb.seen
    rw [UInt64.le_iff_toNat_le, heq, List.length_map] at hle
    exact absurd hle (Nat.not_le_of_lt hl)
  | error e fs' => exact ⟨e, fs', rfl⟩

def Entry.docs : Entry where
  header := .directory "docs/"
  payload := []

def Entry.nested : Entry where
  header := .regular "docs/nested" 0o644 1024
  payload := Archive.endMark

def Entry.underGreeting : Entry where
  header := .regular "hello.txt/more" 0o644 0
  payload := []

theorem Entry.storable_docs_nested : ∀ e ∈ [docs, nested], e.Storable :=
  List.forall_mem_cons.mpr ⟨⟨by decide, by decide, by decide, rfl⟩,
    List.forall_mem_singleton.mpr ⟨by decide, by decide, by decide, List.length_replicate⟩⟩

theorem Entry.storable_greeting : greeting.Storable :=
  ⟨representable_greeting.name, representable_greeting.leading, by decide, rfl⟩

theorem Entry.storable_greeting_under : ∀ e ∈ [greeting, underGreeting], e.Storable :=
  List.forall_mem_cons.mpr ⟨storable_greeting,
    List.forall_mem_singleton.mpr ⟨by decide, by decide, by decide, rfl⟩⟩

theorem Limits.admits_docs_nested_of {l : Limits} (hf : 2 ≤ l.files.toNat) (hs : 1024 ≤ l.fileSize)
    (ht : 1024 ≤ l.totalSize.toNat) (hdocs : components l "docs/" = .ok ["docs"])
    (hnested : components l "docs/nested" = .ok ["docs", "nested"]) :
    l.Admits ([Entry.docs, Entry.nested].map (·.header)) where
  files := hf
  fileSize := List.forall_mem_cons.mpr ⟨UInt64.zero_le, List.forall_mem_singleton.mpr hs⟩
  totalSize := ht
  accepted := List.forall_mem_cons.mpr ⟨⟨_, hdocs⟩, List.forall_mem_singleton.mpr ⟨_, hnested⟩⟩
  no_link := by decide
  apart := List.pairwise_pair.mpr (by decide)

theorem Limits.admits_docs_nested :
    ({} : Limits).Admits ([Entry.docs, Entry.nested].map (·.header)) :=
  admits_docs_nested_of (by decide) (by decide) (by decide) rfl rfl

theorem Archive.entries?_docs_nested :
    entries? 255 (write [Entry.docs, Entry.nested]) =
      some [Entry.docs.written, Entry.nested.written] :=
  have hs := Entry.storable_docs_nested
  (holds_write .finished fun e he => ⟨hs e he, by revert e; decide⟩).entries?

theorem FileSystem.isVacant_out : (FileSystem.root 0).IsVacant ["out"] ["out"] :=
  .inl (.here (.nil _) (by decide) rfl)

theorem Destination.root_out :
    Destination.root (FileSystem.root 0) ⟨"out"⟩ = .ok (pathTo ["out"]) := rfl

theorem FileSystem.utf8ByteSize_out : (pathTo ["out"]).text.utf8ByteSize = 4 := by
  rw [text_pathTo_singleton]
  rfl

theorem FileSystem.room_out {n : Nat} (hn : n ≤ 100) :
    (pathTo ["out"]).text.utf8ByteSize + 1 + n ≤ maxPathBytes := by
  rw [utf8ByteSize_out, maxPathBytes]
  omega

theorem FileSystem.short_out : (pathTo ["out"]).text.utf8ByteSize ≤ maxPathBytes :=
  Nat.le_trans (Nat.le_add_right _ 1) (room_out (Nat.zero_le 100))

theorem Extractor.extract_write_docs :
    (FileSystem.root 0).IsVacant ["out"] ["out"] ∧
    (∃ summary fs', Extractor.extract {}
      (.reader (Archive.write [Entry.docs, Entry.nested]) .finished Input.plainSchedule) ⟨"out"⟩
      (FileSystem.root 0) = .ok summary fs') ∧
    ¬ ∃ summary fs', Extractor.extract {}
      (.reader (Archive.write [Entry.greeting, Entry.underGreeting]) .finished Input.plainSchedule)
      ⟨"out"⟩ (FileSystem.root 0) = .ok summary fs' := by
  refine ⟨isVacant_out, ?_, ?_⟩
  · have hsize : ∀ e ∈ [Entry.docs, Entry.nested], e.header.fullPath.utf8ByteSize ≤ 100 := by
      decide
    have hiff := extract_write_iff (.of_limits {}) (by decide) Entry.storable_docs_nested
      Destination.root_out isVacant_out short_out fun e he => room_out (hsize e he)
    exact (hiff _ _).mpr ⟨by decide, Limits.admits_docs_nested⟩
  · have hsize : ∀ e ∈ [Entry.greeting, Entry.underGreeting],
        e.header.fullPath.utf8ByteSize ≤ 100 := by
      decide
    have hiff := extract_write_iff (.of_limits {}) (by decide) Entry.storable_greeting_under
      Destination.root_out isVacant_out short_out fun e he => room_out (hsize e he)
    intro h
    have ⟨_, ha⟩ := (hiff _ _).mp h
    exact (List.pairwise_pair.mp ha.apart).1 (by decide)

namespace Extractor

variable {l : Limits}

theorem extract_docs_nested_of_admits (hc : l.componentLength = 255)
    (ha : l.Admits ([Entry.docs, Entry.nested].map (·.header))) (ending : Ending)
    (schedule : Schedule) :
    ∃ summary fs', Extractor.extract { limits := l }
        (.reader (Archive.write [Entry.docs, Entry.nested]) ending schedule) ⟨"out"⟩
        (FileSystem.root 0) = .ok summary fs' ∧
      HasEffect { limits := l } ["out"] ["out"] [Entry.docs.written, Entry.nested.written]
        ((FileSystem.root 0).put ["out"] (.directory defaultDirectoryMode)) fs' summary := by
  have hs := Entry.storable_docs_nested
  have hsize : ∀ e ∈ [Entry.docs, Entry.nested], e.header.fullPath.utf8ByteSize ≤ 100 := by
    decide
  have hbounds : ∀ e ∈ [Entry.docs, Entry.nested], e.header.name.length ≤ l.componentLength.toNat ∧
      e.header.leading.length ≤ l.componentLength.toNat := by
    rw [hc]
    decide
  have hh := Archive.holds_write ending fun e he => ⟨hs e he, hbounds e he⟩
  have hplace : (FileSystem.root 0).HasPlaceFor "out" [] [] := .of_root (by decide) rfl
  refine extract_new (.of_limits l) rfl hh ((Limits.admits_written_iff hs).mpr ha)
    Destination.root_out hplace ?_
  exact List.forall_mem_map (f := Entry.written) |>.mpr fun e he =>
    (hs e he).fitsBelow (room_out (hsize e he))

theorem extract_docs_nested (ending : Ending) (schedule : Schedule) :
    ∃ summary fs', Extractor.extract {}
      (.reader (Archive.write [Entry.docs, Entry.nested]) ending schedule) ⟨"out"⟩
      (FileSystem.root 0) = .ok summary fs' :=
  have ⟨summary, fs', h, _⟩ :=
    extract_docs_nested_of_admits rfl Limits.admits_docs_nested ending schedule
  ⟨summary, fs', h⟩

end Extractor
end TarGuard
