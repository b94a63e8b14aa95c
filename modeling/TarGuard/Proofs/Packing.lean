import TarGuard.Packing
import TarGuard.Proofs.Admission
import TarGuard.Proofs.Decoding
import TarGuard.Proofs.Encoding
import TarGuard.Proofs.SafeName
import TarGuard.Proofs.Writing

namespace TarGuard

open FileSystem EntryPath

namespace Packing

structure Item where
  path : Path
  name : String
  file : File

namespace Item

variable {fs : FileSystem} {limits : Limits} {i : Item}

structure Stands (i : Item) (fs : FileSystem) : Prop where
  node : fs.linkStatus i.path = .ok (.file i.file)
  name : i.path.fileName? = some i.name

def entry (i : Item) : Entry :=
  entryOfFile i.name i.file

structure Suits (i : Item) (limits : Limits) : Prop where
  short    : i.name.utf8ByteSize ≤ 100
  safe     : IsSafeComponent limits.componentLength i.name
  path     : i.name.utf8ByteSize ≤ limits.pathLength.toNat
  size     : i.file.content.length < 8 ^ 11
  fileSize : i.file.content.length ≤ limits.fileSize.toNat

theorem Stands.read (h : i.Stands fs) : fs.read i.path = .ok i.file.content := by
  obtain ⟨loc, hl, hn⟩ := linkStatus_eq_ok_iff.mp h.node
  have hs := locate_status_of_linkStatus hl fun t ht => by cases hn.symm.trans ht
  simp only [FileSystem.read, status, hs, bind, Except.bind, existing, hn]
  rfl

theorem Stands.entryOfPath? (h : i.Stands fs) :
    entryOfPath? fs i.path = .ok (some i.entry) := by
  simp only [Packing.entryOfPath?, h.node, h.read, h.name, bind, Except.bind]
  rfl

namespace Suits

variable (h : i.Suits limits)

include h

theorem toNat_size : i.entry.header.size.toNat = i.file.content.length :=
  UInt64.toNat_ofNat_of_lt' (Nat.lt_trans h.size (by decide))

theorem storable : i.entry.Storable where
  name := h.safe.holds h.short
  leading :=
    have hnone : FieldText.Holds 155 "" := by decide
    hnone
  size := h.toNat_size ▸ h.size
  payload := h.toNat_size.symm

theorem components (hd : 1 ≤ limits.pathDepth.toNat) :
    EntryPath.components limits i.entry.header.fullPath = .ok [i.name] :=
  components_of_isSafeComponent h.safe h.path hd

theorem trail_eq : i.entry.header.trail = [i.name] := by
  have hs : split i.name = [i.name] := h.safe.split_eq
  exact congrArg List.reverse hs

end Suits

end Item

structure Suits (items : List Item) (limits : Limits) : Prop where
  each      : ∀ i ∈ items, i.Suits limits
  distinct  : (items.map (·.name)).Nodup
  files     : items.length ≤ limits.files.toNat
  totalSize : (items.map (·.file.content.length)).sum ≤ limits.totalSize.toNat
  depth     : 1 ≤ limits.pathDepth.toNat

section

variable {fs fs' : FileSystem} {limits : Limits} {items : List Item} {archive : Path} {n : Nat}
  {compress : List UInt8 → List UInt8} {decoder : Input.Decoder}

theorem mapM_entryOfPath? (h : ∀ i ∈ items, i.Stands fs) :
    (items.map (·.path)).mapM (entryOfPath? fs) = .ok (items.map fun i => some i.entry) := by
  induction items with
  | nil => rfl
  | cons i items ih =>
    have ⟨hi, hitems⟩ := List.forall_mem_cons.mp h
    rw [List.map_cons, List.mapM_cons, hi.entryOfPath?, ih hitems]
    rfl

theorem pack_eq (h : ∀ i ∈ items, i.Stands fs) :
    pack fs archive (items.map (·.path)) compress =
      (fs.write archive (archiveContent archive (items.map (·.entry)) compress)).map
        fun fs' => (items.length, fs') := by
  have hentries : (items.map fun i => some i.entry).filterMap id = items.map (·.entry) := by
    simp [List.filterMap_map]
  simp only [pack, mapM_entryOfPath? h, bind, Except.bind, hentries, List.length_map]
  cases fs.write archive (archiveContent archive (items.map (·.entry)) compress) with
  | error e => rfl
  | ok fs' => rfl

theorem of_pack (h : ∀ i ∈ items, i.Stands fs)
    (hp : pack fs archive (items.map (·.path)) compress = .ok (n, fs')) :
    n = items.length ∧ fs'.clock = fs.clock ∧
      fs'.read archive = .ok (archiveContent archive (items.map (·.entry)) compress) := by
  rw [pack_eq h] at hp
  cases hw : fs.write archive (archiveContent archive (items.map (·.entry)) compress) with
  | error e =>
    rw [hw] at hp
    cases hp
  | ok fs' =>
    rw [hw] at hp
    cases hp
    exact ⟨rfl, clock_of_write hw, read_of_write hw⟩

theorem exists_of_pack {files : List Path} (hp : pack fs archive files compress = .ok (n, fs')) :
    ∃ found, files.mapM (entryOfPath? fs) = .ok found ∧ n = (found.filterMap id).length ∧
      fs.write archive (archiveContent archive (found.filterMap id) compress) = .ok fs' := by
  unfold pack at hp
  cases hm : files.mapM (entryOfPath? fs) with
  | error e =>
    rw [hm] at hp
    cases hp
  | ok found =>
    rw [hm] at hp
    cases hw : fs.write archive (archiveContent archive (found.filterMap id) compress) with
    | error e =>
      simp only [bind, Except.bind, hw] at hp
      cases hp
    | ok fs₁ =>
      simp only [bind, Except.bind, hw] at hp
      cases hp
      exact ⟨found, rfl, rfl, hw⟩

theorem finds_archiveContent (hc : ∀ bytes, decoder.Finds (compress bytes) bytes .finished)
    (archive : Path) (entries : List Entry) :
    decoder.Finds (archiveContent archive entries compress) (Archive.write entries) .finished := by
  rw [archiveContent]
  split
  case isTrue => exact hc _
  case isFalse => exact .plain (Archive.not_magic_write entries)

namespace Suits

variable (h : Suits items limits)

include h

theorem storable : ∀ e ∈ items.map (·.entry), e.Storable :=
  List.forall_mem_map.mpr fun i hi => (h.each i hi).storable

theorem admits : limits.Admits ((items.map (·.entry)).map (·.header)) where
  files := by
    rw [List.length_map, List.length_map]
    exact h.files
  fileSize := by
    rw [List.forall_mem_map, List.forall_mem_map]
    intro i hi
    rw [UInt64.le_iff_toNat_le, (h.each i hi).toNat_size]
    exact (h.each i hi).fileSize
  totalSize := by
    have hsizes : items.map (·.entry.header.size.toNat) = items.map (·.file.content.length) :=
      List.map_congr_left fun i hi => (h.each i hi).toNat_size
    rw [List.map_map, List.map_map]
    exact hsizes ▸ h.totalSize
  accepted := by
    rw [List.forall_mem_map, List.forall_mem_map]
    exact fun i hi => ⟨_, (h.each i hi).components h.depth⟩
  no_link := by
    rw [List.forall_mem_map, List.forall_mem_map]
    intro i _
    exact ⟨nofun, nofun⟩
  apart := by
    have hblocks {i j : Item} (hi : i ∈ items) (hj : j ∈ items) (hne : i.name ≠ j.name) :
        ¬ i.entry.header.Blocks j.entry.header := by
      intro hb
      have ht := hb.trail
      rw [(h.each i hi).trail_eq, (h.each j hj).trail_eq] at ht
      exact hne (List.singleton_inj.mp (ht.eq_of_length rfl))
    rw [List.pairwise_map, List.pairwise_map]
    exact (List.pairwise_map.mp h.distinct).imp_of_mem fun hi hj hne =>
      ⟨hblocks hi hj hne, hblocks hj hi hne.symm⟩

end Suits

end

end Packing

end TarGuard
