import TarGuard.Proofs.Completeness

namespace TarGuard

open FileSystem

namespace Extractor

variable {x : Extractor} {names : List String} {base : Location} {es es' : List Entry}
  {s s' t t' : Session} {fs fs₁ fs₂ : FileSystem} {summary summary' : Summary}

theorem HasEffect.summary_eq (h : x.HasEffect names base es fs fs₁ summary)
    (h' : x.HasEffect names base es' fs fs₂ summary') (hp : es.Perm es') :
    summary' = summary := by
  have hsum := (hp.map fun e => e.header.size.toNat).sum_nat
  apply Summary.ext
  case filesWritten => rw [h.filesWritten, h'.filesWritten, hp.countP_eq]
  case directoriesCreated => rw [h.directoriesCreated, h'.directoriesCreated, hp.countP_eq]
  case entriesSkipped => rw [h.entriesSkipped, h'.entriesSkipped, hp.countP_eq]
  case bytesExtracted =>
    rw [← UInt64.toNat_inj, h.bytesExtracted, h'.bytesExtracted, hsum]

theorem HasEffect.node?_eq (h : x.HasEffect names base es fs fs₁ summary)
    (h' : x.HasEffect names base es' fs fs₂ summary') (hp : es.Perm es') (l : Location) :
    fs₂.node? l = fs₁.node? l := by
  cases hn : fs.node? l with
  | some node => rw [h.exactly.kept l node hn, h'.exactly.kept l node hn]
  | none =>
    ext node
    rw [h.exactly.added l node hn, h'.exactly.added l node hn]
    exact exists_congr fun e => and_congr_left fun _ => hp.mem_iff.symm

theorem Completed.perm (hc : x.Completed names base es s t) (hc' : x.Completed names base es' s' t')
    (hp : es.Perm es') (hn : s.seen = 0) (hs : s.summary = {})
    (hfiles : s'.files = s.files) (hn' : s'.seen = 0) (hs' : s'.summary = {}) :
    t'.summary = t.summary ∧ t'.files = t.files := by
  have h := hc.hasEffect hn hs
  have h' := hfiles ▸ hc'.hasEffect hn' hs'
  refine ⟨h.summary_eq h' hp, ext_node? (h.node?_eq h' hp) ?_ ?_⟩
  · rw [hc'.grows.current, hc.grows.current, hfiles]
  · rw [hc'.grows.clock, hc.grows.clock, hfiles]

variable {entries entries' : List Entry} {ending : Ending} {schedule : Schedule}
  {destination : Path} {fs' : FileSystem}

theorem extract_of_perm (hx : x.Undisturbed) (hs : ∀ e ∈ entries, e.Storable)
    (hp : entries.Perm entries')
    (h : x.extract (.reader (Archive.write entries) ending schedule) destination fs =
      .ok summary fs') :
    x.extract (.reader (Archive.write entries') ending schedule) destination fs =
      .ok summary fs' := by
  have ⟨hbounds, names, base, s, t, hb, hc, hsum, hfs⟩ := extract_write_completed hs h
  have hb' : Begins (.reader (Archive.write entries') ending schedule) destination fs names base
      { s with input := { remaining := Archive.write entries', ending, schedule } } :=
    hb.reopen rfl
  have hw : Archive.Holds x.limits.componentLength ending (Archive.write entries')
      (entries'.map Entry.written) :=
    Archive.holds_write ending fun e he => have he := hp.mem_iff.mpr he; ⟨hs e he, hbounds e he⟩
  have hsuits := (hc.suits hb.seen hb.summary).perm ((hp.map Entry.written).map _)
  have ⟨t', hc', h'⟩ := extract_of_suits hx hb' hw hsuits
  have ⟨hsum', hfs'⟩ := hc.perm hc' (hp.map _) hb.seen hb.summary rfl hb.seen hb.summary
  rw [h', hsum', hfs', hsum, hfs]

theorem extract_perm (limits : Limits) (hs : ∀ e ∈ entries, e.Storable)
    (hp : entries.Perm entries') (ending : Ending) (schedule : Schedule) (destination : Path)
    (fs : FileSystem) (summary : Summary) (fs' : FileSystem) :
    Extractor.extract { limits := limits } (.reader (Archive.write entries) ending schedule)
        destination fs = .ok summary fs' ↔
      Extractor.extract { limits := limits } (.reader (Archive.write entries') ending schedule)
        destination fs = .ok summary fs' :=
  ⟨extract_of_perm (.of_limits limits) hs hp,
    extract_of_perm (.of_limits limits) (fun e he => hs e (hp.mem_iff.mpr he)) hp.symm⟩

end Extractor

theorem Extractor.extract_nested_docs :
    ∃ summary fs',
      Extractor.extract {} (.reader (Archive.write [Entry.docs, Entry.nested]) .finished
        Input.plainSchedule) ⟨"out"⟩ (FileSystem.root 0) = .ok summary fs' ∧
      Extractor.extract {} (.reader (Archive.write [Entry.nested, Entry.docs]) .finished
        Input.plainSchedule) ⟨"out"⟩ (FileSystem.root 0) = .ok summary fs' := by
  have ⟨summary, fs', h⟩ := extract_docs_nested .finished Input.plainSchedule
  have hiff := extract_perm {} Entry.storable_docs_nested (.swap Entry.nested Entry.docs [])
    .finished Input.plainSchedule ⟨"out"⟩ (FileSystem.root 0) summary fs'
  exact ⟨summary, fs', h, hiff.mp h⟩

end TarGuard
