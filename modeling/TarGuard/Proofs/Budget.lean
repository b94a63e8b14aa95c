import TarGuard.Proofs.Charges
import TarGuard.Proofs.Completeness
import TarGuard.Proofs.Limits
import TarGuard.Proofs.Moments

namespace TarGuard

open FileSystem SecureDirectory EntryPath

namespace Extractor

variable {x : Extractor} {source : Source} {destination : Path} {names : List String}
  {base : Location} {fs fs' : FileSystem} {s t u : Session} {h : Header} {hs : List Header}
  {es : List Entry} {p : Phase}

theorem Completed.grows_owns (hc : x.Completed names base es s t) :
    Grows (fun l node => ∃ h ∈ es.map (·.header), h.Owns base l node) s.files t.files := by
  apply hc.grows.mono
  intro l node ⟨e, he, hw⟩
  have ⟨_, _, _, _, _, hce, _⟩ := hc.exists_completes he
  exact ⟨e.header, List.mem_map_of_mem he, hw.owns hce.length⟩

namespace Begins

variable (hb : Begins source destination fs names base s)
  (hf : x.limits.files.toNat + 1 < UInt64.size)

include hb hf

theorem covers (hc : x.Completed names base es s t) : x.limits.Covers (es.map (·.header)) where
  files := by
    have ⟨hle, heq⟩ := hc.seen_of_start hf hb.seen
    rw [List.length_map, ← heq]
    exact UInt64.le_iff_toNat_le.mp hle
  totalSize := by
    have ⟨hle, heq⟩ := hc.bytes_of_start hb.summary
    rw [List.map_map]
    exact heq ▸ UInt64.le_iff_toNat_le.mp hle
  fileSize h hh := by
    have ⟨e, he, heq⟩ := List.mem_map.mp hh
    have ⟨_, _, _, _, _, hce, _⟩ := hc.exists_completes he
    exact heq ▸ UInt64.le_iff_toNat_le.mp hce.allows.fileSize
  pathDepth h hh := by
    have ⟨e, he, heq⟩ := List.mem_map.mp hh
    have ⟨_, _, _, _, _, hce, _⟩ := hc.exists_completes he
    have ha := accepted_of_resolve hce.resolved
    exact heq ▸ ha.length_trail

-- A record is charged before its entry is there.
theorem covers_begun (hc : x.Completed names base es s t) (hh : x.Begun names h t u) :
    x.limits.Covers (es.map (·.header) ++ [h]) := by
  have ⟨hseen, hlen⟩ := hc.seen_of_start hf hb.seen
  have ⟨hused, hsum⟩ := hc.bytes_of_start hb.summary
  have ha := accepted_of_resolve hh.resolved
  have hallows := Limits.allows_of_check hh.checked
  apply (hb.covers hf hc).snoc
  case files =>
    rw [List.length_map, ← hlen, ← toNat_add_one hf hseen]
    exact UInt64.le_iff_toNat_le.mp hallows.files
  case totalSize =>
    rw [List.map_map]
    exact hsum ▸ hallows.totalSize hused
  case fileSize => exact UInt64.le_iff_toNat_le.mp hallows.fileSize
  case pathDepth => exact ha.length_trail

end Begins

def Accounted (x : Extractor) (base : Location) (fs fs' : FileSystem) : Prop :=
  ∃ hs, x.limits.Covers hs ∧ Grows (fun l node => ∃ h ∈ hs, h.Owns base l node) fs fs'

namespace Begins

variable (hb : Begins source destination fs names base s)

include hb

theorem respected (h : x.Accounted base s.files fs') :
    x.limits.Respected destination fs fs' :=
  have ⟨_, hc, g⟩ := h
  respected_of_owned hb.grows g hb.leads.ordinary hb.root hc

variable (hf : x.limits.files.toNat + 1 < UInt64.size)

include hf

theorem accounted (hc : x.Completed names base es s t) : x.Accounted base s.files t.files :=
  ⟨_, hb.covers hf hc, hc.grows_owns⟩

theorem accounted_begun (hc : x.Completed names base es s t) (hh : x.Begun names h t u)
    (g : Grows (h.Owns base) t.files fs') : x.Accounted base s.files fs' := by
  refine ⟨_, hb.covers_begun hf hc hh, (hc.grows_owns.mono ?_).trans (g.mono ?_)⟩
  · exact fun _ _ ⟨h', hm, hw⟩ => ⟨h', List.mem_append_left [h] hm, hw⟩
  · exact fun _ _ hw => ⟨h, List.mem_append_right _ List.mem_cons_self, hw⟩

theorem accounted_at (ha : x.At names base s es p t) : x.Accounted base s.files t.files := by
  cases ha with
  | ready hc => exact hb.accounted hf hc
  | within hc hh hp => exact hb.accounted_begun hf hc hh hp.grows_owns

theorem accounted_of_error {e : ExtractError} (ha : x.At names base s es p t)
    (hx : x.step (pathTo names) p t = .error e u) : x.Accounted base s.files u.files := by
  cases ha with
  | ready hc =>
    rw [(step_ready_ends x (hc.leads hb.leads)).of_error hx]
    exact hb.accounted hf hc
  | within hc hh hp =>
    have ha := accepted_of_resolve hh.resolved
    have g := (hp.step_ends ha hh.paddedSize).of_error hx
    exact hb.accounted_begun hf hc hh (g.mono fun _ _ hw => hw.owns)

end Begins

-- The records that are done, what was counted, and what there is: all of it is within the limits,
-- and the count is exact.
structure InBudget (x : Extractor) (destination : Path) (fs : FileSystem) (hs : List Header)
    (summary : Summary) (fs' : FileSystem) : Prop where
  bytes_le  : summary.bytesExtracted ≤ x.limits.totalSize
  bytes_eq  : summary.bytesExtracted.toNat = (hs.map (·.size.toNat)).sum
  respected : x.limits.Respected destination fs fs'

theorem InBudget.of_respected (h : x.limits.Respected destination fs fs') :
    x.InBudget destination fs [] {} fs' :=
  ⟨UInt64.zero_le, rfl, h⟩

theorem At.summary (ha : x.At names base s es p t) :
    ∃ u, x.Completed names base es s u ∧ t.summary = u.summary := by
  cases ha with
  | ready hc => exact ⟨_, hc, rfl⟩
  | within hc _ _ hs => exact ⟨_, hc, hs⟩

theorem Begins.inBudget (hb : Begins source destination fs names base s)
    (ha : x.At names base s es p t) (hu : u.summary = t.summary)
    (h : x.Accounted base s.files u.files) :
    x.InBudget destination fs (es.map (·.header)) u.summary u.files := by
  have ⟨v, hc, hv⟩ := ha.summary
  have ⟨hle, heq⟩ := hc.bytes_of_start hb.summary
  refine ⟨by rwa [hu, hv], ?_, hb.respected h⟩
  rw [hu, hv, heq, List.map_map]
  rfl

theorem Finishes.inBudget (hf : x.limits.files.toNat + 1 < UInt64.size)
    (h : x.Finishes source destination fs names base s hs t) :
    x.InBudget destination fs hs t.summary t.files := by
  have hb := h.begins
  have ⟨u, hr, hx⟩ := h.reaches
  have ⟨es, hes, ha⟩ := hr.at hb.leads
  cases ha with
  | ready hc =>
    have hfiles := (step_ready_ends x (hc.leads hb.leads)).of_ok hx
    have hsum := (x.step_countsLast _ _ _).of_ok hx
    subst hes
    apply hb.inBudget (.ready hc) (hsum nofun)
    rw [hfiles]
    exact hb.accounted hf hc
  | within _ _ hp => exact absurd rfl hp.ne_ready

theorem Moment.inBudget {summary : Summary} (hf : x.limits.files.toNat + 1 < UInt64.size)
    (h : x.Moment source destination fs hs summary fs') :
    x.InBudget destination fs hs summary fs' := by
  cases h with
  | start => exact .of_respected (.refl destination fs)
  | preparing hr hp =>
    have ⟨names, ho, he⟩ := Destination.exists_root_eq_pathTo hr
    subst he
    have g := Destination.grows_makeDirectories fs ho hp
    exact .of_respected (respected_of_isPart g ho hr)
  | point hb hr =>
    have ⟨es, hes, ha⟩ := hr.at hb.leads
    subst hes
    exact hb.inBudget ha rfl (hb.accounted_at hf ha)
  | failure hb hr hx =>
    have ⟨es, hes, ha⟩ := hr.at hb.leads
    subst hes
    have hsum := (x.step_countsLast _ _ _).of_error hx
    exact hb.inBudget ha hsum (hb.accounted_of_error hf ha hx)
  | done h => exact h.inBudget hf

theorem extract_in_budget (x : Extractor) (source : Source) (destination : Path) (fs : FileSystem)
    (hf : x.limits.files.toNat + 1 < UInt64.size) :
    (∀ hs summary fs', x.Moment source destination fs hs summary fs' →
      x.InBudget destination fs hs summary fs') ∧
    Ends (x.extract source destination) fs
      (fun summary fs' => ∃ names base s hs t, x.Finishes source destination fs names base s hs t ∧
        summary = t.summary ∧ fs' = t.files ∧ x.InBudget destination fs hs summary fs')
      (fun _ fs' => ∃ hs summary, x.Moment source destination fs hs summary fs' ∧
        x.InBudget destination fs hs summary fs') := by
  refine ⟨fun hs summary fs' h => h.inBudget hf, ?_⟩
  refine (extract_moment x source destination fs).imp ?_ ?_
  · intro summary fs' ⟨names, base, s, hs, t, h, hsum, hfiles⟩
    subst hsum hfiles
    exact ⟨names, base, s, hs, t, h, rfl, rfl, h.inBudget hf⟩
  · intro e fs' ⟨hs, summary, h⟩
    exact ⟨hs, summary, h, h.inBudget hf⟩

end Extractor

-- A directory and a file in it use these up.
def Limits.tight : Limits where
  fileSize := 1024
  totalSize := 1024
  files := 2
  pathDepth := 2

theorem Extractor.tight_in_budget :
    (∃ summary fs', Extractor.extract { limits := .tight }
        (.reader (Archive.write [Entry.docs, Entry.nested]) .finished Input.plainSchedule) ⟨"out"⟩
        (FileSystem.root 0) = .ok summary fs' ∧
      summary.bytesExtracted = Limits.tight.totalSize ∧
      fs'.node? ["nested", "docs", "out"] = some (.file ⟨Archive.endMark, 0o600, 0⟩) ∧
      Limits.tight.Respected ⟨"out"⟩ (FileSystem.root 0) fs') ∧
    ∃ e fs', Extractor.extract { limits := .tight }
        (.reader (Archive.write [Entry.docs, Entry.nested, Entry.greeting]) .finished
          Input.plainSchedule) ⟨"out"⟩ (FileSystem.root 0) = .error e fs' ∧
      Limits.tight.Respected ⟨"out"⟩ (FileSystem.root 0) fs' := by
  constructor
  · have ha : Limits.tight.Admits ([Entry.docs, Entry.nested].map (·.header)) :=
      Limits.admits_docs_nested_of (by decide) (by decide) (by decide) rfl rfl
    have ⟨summary, fs', hx, he⟩ := extract_docs_nested_of_admits rfl ha .finished Input.plainSchedule
    have ⟨_, hends⟩ := extract_in_budget { limits := .tight } (.reader
      (Archive.write [Entry.docs, Entry.nested]) .finished Input.plainSchedule) ⟨"out"⟩
      (FileSystem.root 0) (by decide)
    have ⟨_, _, _, _, _, _, _, _, hb⟩ := hends.of_ok hx
    have hmem : Entry.nested.written ∈ [Entry.docs.written, Entry.nested.written] :=
      List.mem_cons_of_mem _ List.mem_cons_self
    have ⟨_, _, _, hfile⟩ := he.file _ hmem (Entry.kind_written _)
    rw [Entry.trail_written] at hfile
    refine ⟨summary, fs', hx, UInt64.toNat_inj.mp ?_, hfile, hb.respected⟩
    exact he.bytesExtracted
  · have ⟨hdocs, hnested⟩ := List.forall_mem_cons.mp Entry.storable_docs_nested
    have hs : ∀ e ∈ [Entry.docs, Entry.nested, Entry.greeting], e.Storable :=
      List.forall_mem_cons.mpr ⟨hdocs, List.forall_mem_cons.mpr
        ⟨hnested _ List.mem_cons_self, List.forall_mem_singleton.mpr Entry.storable_greeting⟩⟩
    have ⟨e, fs', hx⟩ := extract_write_of_length_lt (x := { limits := .tight }) (by decide) hs
      (by decide) .finished Input.plainSchedule ⟨"out"⟩ (FileSystem.root 0)
    have ⟨_, hends⟩ := extract_in_budget { limits := .tight } (.reader
      (Archive.write [Entry.docs, Entry.nested, Entry.greeting]) .finished Input.plainSchedule)
      ⟨"out"⟩ (FileSystem.root 0) (by decide)
    have ⟨_, _, _, hb⟩ := hends.of_error hx
    exact ⟨e, fs', hx, hb.respected⟩

end TarGuard
