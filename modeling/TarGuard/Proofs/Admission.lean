import TarGuard.Proofs.Effect
import TarGuard.Proofs.Entries

namespace TarGuard

open FileSystem EntryPath

namespace Header

-- A file stands in the way of a file or directory at its own path, or at one that goes on from it.
def Blocks (h h' : Header) : Prop :=
  h.kind = .regular ∧ (h'.kind = .directory ∨ h'.kind = .regular) ∧
    split h.fullPath <+: split h'.fullPath

instance (h h' : Header) : Decidable (h.Blocks h') :=
  inferInstanceAs (Decidable (_ ∧ _))

theorem Blocks.trail {h h' : Header} (hb : h.Blocks h') : h.trail <:+ h'.trail :=
  List.reverse_suffix.mpr hb.2.2

theorem Blocks.of_trail {h h' : Header} (hk : h.kind = .regular)
    (hk' : h'.kind = .directory ∨ h'.kind = .regular) (ht : h.trail <:+ h'.trail) : h.Blocks h' :=
  ⟨hk, hk', List.reverse_suffix.mp ht⟩

end Header

-- The headers of an archive that can be extracted.
structure Limits.Admits (l : Limits) (hs : List Header) : Prop where
  files     : hs.length ≤ l.files.toNat
  fileSize  : ∀ h ∈ hs, h.size ≤ l.fileSize
  totalSize : (hs.map (·.size.toNat)).sum ≤ l.totalSize.toNat
  accepted  : ∀ h ∈ hs, ∃ names, components l h.fullPath = .ok names
  no_link   : ∀ h ∈ hs, h.kind ≠ .hardLink ∧ h.kind ≠ .symbolicLink
  apart     : hs.Pairwise fun h h' => ¬ h.Blocks h' ∧ ¬ h'.Blocks h

theorem Limits.admits_map_iff {l : Limits} {hs : List Header} {f : Header → Header}
    (hf : ∀ h ∈ hs, (f h).size = h.size ∧ (f h).kind = h.kind ∧ (f h).fullPath = h.fullPath) :
    l.Admits (hs.map f) ↔ l.Admits hs := by
  have hsum : ((hs.map f).map (·.size.toNat)).sum = (hs.map (·.size.toNat)).sum := by
    rw [List.map_map]
    exact congrArg List.sum (List.map_congr_left fun h hm => congrArg UInt64.toNat (hf h hm).1)
  have hblocks {h h' : Header} (hm : h ∈ hs) (hm' : h' ∈ hs) :
      (f h).Blocks (f h') ↔ h.Blocks h' := by
    simp only [Header.Blocks, hf h hm, hf h' hm']
  have hapart : ((hs.map f).Pairwise fun h h' => ¬ h.Blocks h' ∧ ¬ h'.Blocks h) ↔
      hs.Pairwise fun h h' => ¬ h.Blocks h' ∧ ¬ h'.Blocks h := by
    rw [List.pairwise_map]
    exact List.Pairwise.iff_of_mem fun hm hm' => by rw [hblocks hm hm', hblocks hm' hm]
  constructor
  · intro ha
    exact {
      files := List.length_map f ▸ ha.files
      fileSize := fun h hm => (hf h hm).1 ▸ ha.fileSize _ (List.mem_map_of_mem hm)
      totalSize := hsum ▸ ha.totalSize
      accepted := fun h hm => (hf h hm).2.2 ▸ ha.accepted _ (List.mem_map_of_mem hm)
      no_link := fun h hm => (hf h hm).2.1 ▸ ha.no_link _ (List.mem_map_of_mem hm)
      apart := hapart.mp ha.apart }
  · intro ha
    exact {
      files := (List.length_map f).symm ▸ ha.files
      fileSize := List.forall_mem_map.mpr fun h hm => (hf h hm).1.symm ▸ ha.fileSize h hm
      totalSize := hsum.symm ▸ ha.totalSize
      accepted := List.forall_mem_map.mpr fun h hm => (hf h hm).2.2.symm ▸ ha.accepted h hm
      no_link := List.forall_mem_map.mpr fun h hm => (hf h hm).2.1.symm ▸ ha.no_link h hm
      apart := hapart.mpr ha.apart }

namespace Extractor

variable {x : Extractor} {s t : Session} {base : Location} {names : List String} {e e' : Entry}
  {es : List Entry}

namespace Completed

theorem trail_eq_of_blocks (h : x.Completed names base es s t) (he : e ∈ es) (he' : e' ∈ es)
    (hb : e.header.Blocks e'.header) :
    e'.header.kind = .regular ∧ e.header.trail = e'.header.trail := by
  have hfile := h.file he hb.1
  have hnot : ¬ t.files.IsDirectory (e.header.trail ++ base) := by
    simp [IsDirectory, hfile, Node.isDirectory]
  by_cases ht : e.header.trail = e'.header.trail
  case pos =>
    refine ⟨hb.2.1.resolve_left fun hk => ?_, ht⟩
    exact hnot (ht ▸ h.directory he' hk)
  case neg =>
    have ⟨_, hn⟩ := h.node? he' hb.2.1
    have ⟨more, hs⟩ := hb.trail
    have hsuf : e.header.trail ++ base <:+ e'.header.trail ++ base :=
      ⟨more, by rw [← hs, List.append_assoc]⟩
    exact absurd (isDirectory_of_suffix hn hsuf fun he => ht (List.append_cancel_right he)) hnot

theorem apart (h : x.Completed names base es s t) :
    (es.map (·.header)).Pairwise fun h h' => ¬ h.Blocks h' ∧ ¬ h'.Blocks h := by
  have hd := List.pairwise_filter.mp (List.pairwise_map.mp h.distinct)
  refine List.pairwise_map.mpr (hd.imp_of_mem fun {e e'} he he' hne => ⟨fun hb => ?_, fun hb => ?_⟩)
  · have ⟨hk, ht⟩ := h.trail_eq_of_blocks he he' hb
    exact hne (by simpa using hb.1) (by simpa using hk) ht
  · have ⟨hk, ht⟩ := h.trail_eq_of_blocks he' he hb
    exact hne (by simpa using hk) (by simpa using hb.1) ht.symm

theorem fileSize (h : x.Completed names base es s t) (he : e ∈ es) :
    e.header.size ≤ x.limits.fileSize :=
  have ⟨_, _, _, _, _, hc, _⟩ := h.exists_completes he
  hc.allows.fileSize

end Completed

end Extractor
end TarGuard
