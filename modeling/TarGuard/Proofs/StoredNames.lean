import TarGuard.Proofs.Restoration

namespace TarGuard

open FileSystem

namespace FieldText

variable {width : Nat} {s : String}

def cut (width : Nat) (s : String) : String :=
  String.ofList (s.toList.take width)

theorem toList_cut : (cut width s).toList = s.toList.take width := by
  rw [cut, String.toList_ofList]

theorem cut_eq_iff : cut width s = s ↔ s.length ≤ width := by
  rw [← String.toList_inj, toList_cut, List.take_eq_self_iff, String.length_toList]

theorem cut_eq_cut_iff {t : String} :
    cut width s = cut width t ↔ s.toList.take width = t.toList.take width := by
  rw [← String.toList_inj, toList_cut, toList_cut]

theorem length_cut_le : (cut width s).length ≤ s.length := by
  rw [← String.length_toList, toList_cut, List.length_take, String.length_toList]
  exact Nat.min_le_right _ _

variable (h : ∀ c ∈ s.toList, IsPlain c)

include h

theorem holds_cut (width : Nat) : Holds width (cut width s) where
  plain c hc := h c (List.mem_of_mem_take (toList_cut ▸ hc))
  length := by
    rw [← String.length_toList, toList_cut, List.length_take]
    exact Nat.min_le_left _ _

theorem write_cut (width : Nat) : write width (cut width s) = write width s := by
  rw [write, write, encode_of_isPlain h, encode_of_isPlain (holds_cut h width).plain, toList_cut,
    fill, fill, List.map_take, List.take_take, Nat.min_self, List.length_take]
  congr 2
  omega

end FieldText

def Header.cut (h : Header) : Header :=
  { h with name := FieldText.cut 100 h.name }

theorem Header.encode_cut {h : Header} (hp : ∀ c ∈ h.name.toList, FieldText.IsPlain c) :
    h.cut.encode = h.encode := by
  have hfront : h.cut.front = h.front := by rw [front, front, cut, FieldText.write_cut hp]
  have hback : h.cut.back = h.back := by rw [back, back, cut]
  apply Block.ext
  simp only [encode, hfront, hback]

namespace Packing

namespace Item

variable {i : Item} {limits : Limits}

structure IsRecorded (i : Item) (limits : Limits) : Prop where
  plain    : ∀ c ∈ i.name.toList, FieldText.IsPlain c
  bound    : i.name.length ≤ limits.componentLength.toNat
  size     : i.file.content.length < 8 ^ 11
  modified : i.file.modified < 8 ^ 11

def listed (i : Item) : Header where
  name := FieldText.cut 100 i.name
  mode := i.file.mode &&& modeBits
  size := .ofNat i.file.content.length
  modified := .ofNat i.file.modified.toNat
  checksum := .ofNat i.entry.header.encode.checksum

def stored (i : Item) : Entry :=
  ⟨i.entry.header.cut, i.file.content⟩

namespace IsRecorded

variable (h : i.IsRecorded limits)

include h

theorem toNat_size : i.listed.size.toNat = i.file.content.length :=
  UInt64.toNat_ofNat_of_lt' (Nat.lt_trans h.size (by decide))

theorem toNat_modified : i.listed.modified.toNat = i.file.modified.toNat := by
  have hlt : i.file.modified.toNat < 8 ^ 11 := by
    have := h.modified
    omega
  exact UInt64.toNat_ofNat_of_lt' (Nat.lt_trans hlt (by decide))

theorem bytes_stored : i.stored.bytes = i.entry.bytes := by
  have hencode : i.stored.header.encode = i.entry.header.encode := Header.encode_cut h.plain
  rw [Entry.bytes, Entry.bytes, hencode]
  rfl

theorem representable : i.stored.header.Representable where
  name := FieldText.holds_cut h.plain 100
  leading :=
    have hnone : FieldText.Holds 155 "" := by decide
    hnone
  linkName :=
    have hnone : '\x00' ∉ "".toList ∧ "".utf8ByteSize ≤ 100 := by decide
    hnone
  mode := by
    have hand : (i.file.mode &&& modeBits).toNat ≤ modeBits.toNat := by
      rw [UInt32.toNat_and]
      exact Nat.and_le_right
    exact Nat.lt_of_le_of_lt hand (by decide)
  size := h.toNat_size ▸ h.size
  modified := by
    have hlt := h.modified
    have heq : i.stored.header.modified.toNat = i.file.modified.toNat := h.toNat_modified
    omega

theorem storable : i.stored.Storable where
  name := h.representable.name
  leading := h.representable.leading
  size := h.representable.size
  payload := h.toNat_size.symm

theorem header_written : i.stored.written.header = i.listed := by
  have hencode : i.stored.header.encode = i.entry.header.encode := Header.encode_cut h.plain
  rw [Entry.written, h.representable.written, hencode]
  rfl

end IsRecorded

end Item

section

variable {fs fs' : FileSystem} {limits : Limits} {items : List Item} {archive : Path} {n : Nat}
  {compress : List UInt8 → List UInt8} {decoder : Input.Decoder}

theorem write_stored (h : ∀ i ∈ items, i.IsRecorded limits) :
    Archive.write (items.map (·.stored)) = Archive.write (items.map (·.entry)) := by
  have hbytes : (items.map (·.stored)).map Entry.bytes = (items.map (·.entry)).map Entry.bytes := by
    rw [List.map_map, List.map_map]
    exact List.map_congr_left fun i hi => (h i hi).bytes_stored
  rw [Archive.write, Archive.write, List.flatMap_def, List.flatMap_def, hbytes]

section Pack

variable (hc : ∀ bytes, decoder.Finds (compress bytes) bytes .finished)
  (hs : ∀ i ∈ items, i.Stands fs) (h : ∀ i ∈ items, i.IsRecorded limits)
  (hf : items.length ≤ limits.files.toNat)
  (hp : pack fs archive (items.map (·.path)) compress = .ok (n, fs'))

include hc hs h hf hp

theorem ofFile_of_pack :
    Listing.ofFile fs' archive limits decoder = .ok (items.map (·.listed)) := by
  obtain ⟨-, -, hread⟩ := of_pack hs hp
  have hstorable : ∀ e ∈ items.map (·.stored), e.Storable :=
    List.forall_mem_map.mpr fun i hi => (h i hi).storable
  have hbounds : ∀ e ∈ items.map (·.stored), e.header.name.length ≤ limits.componentLength.toNat ∧
      e.header.leading.length ≤ limits.componentLength.toNat :=
    List.forall_mem_map.mpr fun i hi =>
      ⟨Nat.le_trans FieldText.length_cut_le (h i hi).bound, Nat.zero_le _⟩
  have hholds := Archive.holds_write .finished fun e he => ⟨hstorable e he, hbounds e he⟩
  have hcontent : archiveContent archive (items.map (·.stored)) compress =
      archiveContent archive (items.map (·.entry)) compress := by
    rw [archiveContent, archiveContent, write_stored h]
  have hfinds := finds_archiveContent hc archive (items.map (·.stored))
  rw [hcontent] at hfinds
  have hheaders : ((items.map (·.stored)).map Entry.written).map (·.header) =
      items.map (·.listed) := by
    rw [List.map_map, List.map_map]
    exact List.map_congr_left fun i hi => (h i hi).header_written
  rw [Listing.ofFile_of_finds hfinds hread Input.plainSchedule, ← hheaders]
  refine Listing.headers_of_holds hholds ⟨rfl, rfl, rfl⟩ ?_
  simpa using hf

-- A packed archive is listed with one header for each file, in their order. It says all that there
-- is to say of the file, but of its name the first hundred characters alone. So a name is complete
-- if it has no more than these, and files with longer names can come to have the same.
theorem list_pack :
    n = items.length ∧
    Listing.ofFile fs' archive limits decoder = .ok (items.map (·.listed)) ∧
    (∀ i ∈ items, i.listed.kind = .regular ∧ i.listed.mode = i.file.mode &&& modeBits ∧
      i.listed.size.toNat = i.file.content.length ∧
      (i.listed.modified.toNat : Int) = max i.file.modified 0 ∧
      i.listed.fullPath = FieldText.cut 100 i.name ∧
      (i.listed.fullPath = i.name ↔ i.name.length ≤ 100)) ∧
    ∀ i ∈ items, ∀ j ∈ items, i.listed.fullPath = j.listed.fullPath ↔
      i.name.toList.take 100 = j.name.toList.take 100 := by
  refine ⟨(of_pack hs hp).1, ofFile_of_pack hc hs h hf hp, fun i hi => ?_, ?_⟩
  · have hr := h i hi
    refine ⟨rfl, rfl, hr.toNat_size, ?_, rfl, FieldText.cut_eq_iff⟩
    rw [hr.toNat_modified]
    omega
  · exact fun _ _ _ _ => FieldText.cut_eq_cut_iff

end Pack

end

theorem isRecorded_greeting (name : String) (hp : ∀ c ∈ name.toList, FieldText.IsPlain c)
    (hl : name.length ≤ 255) : ∀ i ∈ [Item.greeting name], i.IsRecorded {} :=
  have hsize : Entry.greeting.payload.length < 8 ^ 11 := by decide
  List.forall_mem_singleton.mpr ⟨hp, hl, hsize, (by decide : (0 : Int) < 8 ^ 11)⟩

theorem list_pack_greeting :
    let fs := OutputFile.holding (FileSystem.root 0) ["hello.txt"] Entry.greeting.payload
    ∃ fs' header, pack fs (pathTo ["a.tgz"]) [pathTo ["hello.txt"]] = .ok (1, fs') ∧
      Listing.ofFile fs' (pathTo ["a.tgz"]) {} = .ok [header] ∧
      header.fullPath = "hello.txt" ∧ header.mode = 0o600 ∧ header.size = 6 := by
  intro fs
  have hfile : (FileSystem.root 0).HasPlaceFor "hello.txt" [] [] := .of_root (by decide) rfl
  have harchive : (FileSystem.root 0).HasPlaceFor "a.tgz" [] [] := .of_root (by decide) rfl
  have ⟨hs, _, node, hp⟩ := exists_pack_greeting rfl hfile harchive (by decide)
  have hplain : "hello.txt".toList.all fun c => decide (FieldText.IsPlain c) := by decide
  have hrecorded := isRecorded_greeting "hello.txt"
    (fun c hc => of_decide_eq_true (List.all_eq_true.mp hplain c hc)) (by decide)
  have ⟨_, hlist, heach, _⟩ := list_pack Input.Decoder.finds_unpack_store hs hrecorded (by decide) hp
  have ⟨_, _, _, _, _, hname⟩ := heach _ List.mem_cons_self
  exact ⟨_, _, hp, hlist, hname.mpr (by decide), rfl, rfl⟩

-- Of a name that is longer than its field the end is missing.
theorem list_pack_long :
    let fs := OutputFile.holding (FileSystem.root 0) [long 101] Entry.greeting.payload
    (Item.greeting (long 101)).Stands fs ∧ (Item.greeting (long 101)).IsRecorded {} ∧
    ∃ fs' header, pack fs (pathTo ["a.tar"]) [pathTo [long 101]] = .ok (1, fs') ∧
      Listing.ofFile fs' (pathTo ["a.tar"]) {} = .ok [header] ∧
      header.fullPath = long 100 ∧ header.fullPath ≠ long 101 := by
  have hchars : (long 101).toList = List.replicate 101 'a' := String.toList_ofList
  have hlength : (long 101).length = 101 := by
    rw [← String.length_toList, hchars, List.length_replicate]
  have hplain : ∀ c ∈ (long 101).toList, FieldText.IsPlain c := by
    intro c hm
    rw [hchars] at hm
    exact List.eq_of_mem_replicate hm ▸ (by decide : FieldText.IsPlain 'a')
  have hlong : IsFileName (long 101) := isFileName_long (by decide) (by decide)
  have harchive : (FileSystem.root 0).HasPlaceFor "a.tar" [] [] := .of_root (by decide) rfl
  have ⟨hs, _, node, hp⟩ := exists_pack_greeting rfl (.of_root hlong rfl) harchive
    (long_ne (by decide))
  have hrecorded := isRecorded_greeting (long 101) hplain (by omega)
  have hlist := ofFile_of_pack Input.Decoder.finds_unpack_store hs hrecorded (by decide) hp
  have hcut : FieldText.cut 100 (long 101) = long 100 := by
    rw [FieldText.cut, hchars, List.take_replicate]
    rfl
  have hne : FieldText.cut 100 (long 101) ≠ long 101 := fun he => by
    have := FieldText.cut_eq_iff.mp he
    omega
  exact ⟨hs _ List.mem_cons_self, hrecorded _ List.mem_cons_self, _, _, hp, hlist, hcut, hne⟩

end Packing
end TarGuard
