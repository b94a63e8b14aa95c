import TarGuard.Proofs.Completeness
import TarGuard.Proofs.Joining
import TarGuard.Proofs.Packing

namespace TarGuard

open FileSystem EntryPath

namespace Packing

section

variable {fs fs₁ fs₂ : FileSystem} {limits : Limits} {name : String} {above : List String}
  {loc base l : Location} {node : Node} {clock : Int} {i : Item} {items : List Item}

namespace Item.Suits

variable (h : i.Suits limits)

include h

theorem bounds : i.entry.header.name.length ≤ limits.componentLength.toNat ∧
    i.entry.header.leading.length ≤ limits.componentLength.toNat :=
  ⟨h.safe.length_eq ▸ h.safe.2.1, Nat.zero_le _⟩

theorem toNat_size_written : i.entry.written.header.size.toNat = i.file.content.length :=
  (congrArg UInt64.toNat h.storable.size_written).trans h.toNat_size

theorem trail_written : i.entry.written.header.trail = [i.name] := by
  rw [Entry.trail_written, h.trail_eq]

theorem fitsBelow (hroom : (pathTo (i.name :: above)).text.utf8ByteSize ≤ maxPathBytes) :
    i.entry.written.header.FitsBelow above := by
  intro name rest hs
  rw [h.trail_written] at hs
  obtain ⟨rfl, rfl⟩ : name = i.name ∧ rest = [] := by
    simpa using List.suffix_cons_iff.mp hs
  exact ⟨hroom, Nat.le_trans h.short (by decide)⟩

theorem provides_iff : i.entry.written.Provides loc clock l node ↔
    l = i.name :: loc ∧ node = .file ⟨i.file.content, 0o600, clock⟩ := by
  have hk : i.entry.written.header.kind = .regular := Entry.kind_written i.entry
  have ht := h.trail_written
  constructor
  · intro hw
    cases hw with
    | above _ hon =>
      obtain ⟨-, q, hq, hsuffix, -⟩ := hon
      rw [ht] at hsuffix
      exact absurd (List.suffix_nil.mp hsuffix) hq
    | directory hd => cases hk.symm.trans hd
    | file => exact ⟨by rw [ht]; rfl, rfl⟩
  · rintro ⟨rfl, rfl⟩
    have hw : i.entry.written.Provides loc clock _ _ := .file hk
    rwa [ht] at hw

end Item.Suits

theorem Suits.summary_eq {x : Extractor} {names : List String} {summary : Summary}
    (h : Suits items limits)
    (he : x.HasEffect names loc ((items.map (·.entry)).map Entry.written) fs fs₁ summary) :
    summary = { filesWritten := .ofNat items.length,
                bytesExtracted := .ofNat (items.map (·.file.content.length)).sum } := by
  have hkind : ∀ e ∈ (items.map (·.entry)).map Entry.written, e.header.kind = .regular := by
    rw [List.forall_mem_map, List.forall_mem_map]
    exact fun i _ => Entry.kind_written i.entry
  have hsizes : items.map (·.entry.written.header.size.toNat) =
      items.map (·.file.content.length) :=
    List.map_congr_left fun i hi => (h.each i hi).toNat_size_written
  have hbytes := he.bytesExtracted
  rw [List.map_map, List.map_map] at hbytes
  apply Summary.ext
  case filesWritten =>
    rw [he.filesWritten, List.countP_eq_length.mpr fun e hm => decide_eq_true (hkind e hm),
      List.length_map, List.length_map]
  case directoriesCreated =>
    rw [he.directoriesCreated, List.countP_eq_zero.mpr fun e hm => by simp [hkind e hm]]
    rfl
  case entriesSkipped =>
    rw [he.entriesSkipped, List.countP_eq_zero.mpr fun e hm => by simp [hkind e hm]]
    rfl
  case bytesExtracted =>
    rw [← hsizes]
    exact UInt64.ofNat_toNat.symm.trans (congrArg UInt64.ofNat hbytes)

theorem Suits.room_of_extract {x : Extractor} {names : List String} {destination : Path}
    {ending : Ending} {schedule : Schedule} {summary : Summary} (h : Suits items limits)
    (ho : AllOrdinary names) (hroot : Destination.root fs destination = .ok (pathTo names))
    (hrun : x.extract (.reader (Archive.write (items.map (·.entry))) ending schedule) destination
      fs = .ok summary fs₁) :
    ∀ i ∈ items, (pathTo (i.name :: names)).text.utf8ByteSize ≤ maxPathBytes := by
  obtain ⟨-, names', base, s, t, hb, hcompleted, -⟩ :=
    Extractor.extract_write_completed h.storable hrun
  cases pathTo_injective hb.leads.ordinary ho (Except.ok.inj (hb.root.symm.trans hroot))
  intro i hi
  have hmem : i.entry.written ∈ (items.map (·.entry)).map Entry.written :=
    List.mem_map_of_mem (List.mem_map_of_mem hi)
  have hclear := hcompleted.isClear_of_mem hmem (.inr i.entry.kind_written)
  rw [(h.each i hi).trail_written] at hclear
  exact (hclear i.name [] List.suffix_rfl).1.1

-- What is there once the items have been extracted to a new directory: it, and their files.
def IsRestored (items : List Item) (base : Location) (clock : Int) (l : Location) (node : Node) :
    Prop :=
  l = base ∧ node = .directory defaultDirectoryMode ∨
    ∃ i ∈ items, l = i.name :: base ∧ node = .file ⟨i.file.content, 0o600, clock⟩

theorem exactly_restored {x : Extractor} {names : List String} {summary : Summary}
    (h : Suits items limits) (hn : fs.node? base = none)
    (ha : fs.Accepts base (.directory defaultDirectoryMode))
    (he : x.HasEffect names base ((items.map (·.entry)).map Entry.written)
      (fs.put base (.directory defaultDirectoryMode)) fs₁ summary) :
    Exactly (IsRestored items base fs.clock) fs fs₁ := by
  have hprovides (l : Location) (node : Node) :
      (∃ e ∈ (items.map (·.entry)).map Entry.written, e.Provides base fs.clock l node) ↔
        ∃ i ∈ items, l = i.name :: base ∧ node = .file ⟨i.file.content, 0o600, fs.clock⟩ := by
    simp only [List.mem_map, exists_exists_and_eq_and]
    exact exists_congr fun i => and_congr_right fun hi => (h.each i hi).provides_iff
  have hexactly := he.exactly
  simp only [clock_put, hprovides] at hexactly
  refine hexactly.of_put hn ha fun node ⟨i, _, hl, _⟩ => ?_
  exact List.cons_ne_self i.name base hl.symm

section

variable {archive destination : Path} {n : Nat} {compress : List UInt8 → List UInt8}
  {decoder : Input.Decoder} (hc : ∀ bytes, decoder.Finds (compress bytes) bytes .finished)
  (hs : ∀ i ∈ items, i.Stands fs) (h : Suits items limits)
  (hp : pack fs archive (items.map (·.path)) compress = .ok (n, fs₁))

include hc hs h hp

omit h in
theorem runFileWith_pack (x : Extractor) (destination : Path) :
    x.runFileWith decoder archive destination fs₁ =
      x.extract (.reader (Archive.write (items.map (·.entry))) .finished Input.plainSchedule)
        destination fs₁ := by
  obtain ⟨-, -, hread⟩ := of_pack hs hp
  exact Extractor.runFileWith_eq_extract (finds_archiveContent hc archive _) hread x
    destination Input.plainSchedule

theorem extract_pack
    (hroot : Destination.root fs₁ destination = .ok (pathTo (name :: above)))
    (hplace : fs₁.HasPlaceFor name above loc)
    (hroom : ∀ i ∈ items, (pathTo (i.name :: name :: above)).text.utf8ByteSize ≤ maxPathBytes) :
    n = items.length ∧ ∃ fs₂,
      Extractor.runFileWith { limits := limits } decoder archive destination fs₁ =
        .ok { filesWritten := .ofNat items.length,
              bytesExtracted := .ofNat (items.map (·.file.content.length)).sum } fs₂ ∧
      Exactly (IsRestored items (name :: loc) fs.clock) fs₁ fs₂ := by
  obtain ⟨hn, hclock, -⟩ := of_pack hs hp
  have hbounds : ∀ e ∈ items.map (·.entry), e.header.name.length ≤ limits.componentLength.toNat ∧
      e.header.leading.length ≤ limits.componentLength.toNat :=
    List.forall_mem_map.mpr fun i hi => (h.each i hi).bounds
  have hholds := Archive.holds_write .finished fun e he => ⟨h.storable e he, hbounds e he⟩
  have hfit : ∀ e ∈ (items.map (·.entry)).map Entry.written,
      e.header.FitsBelow (name :: above) := by
    rw [List.forall_mem_map, List.forall_mem_map]
    exact fun i hi => (h.each i hi).fitsBelow (hroom i hi)
  have hadmits := (Limits.admits_written_iff h.storable).mpr h.admits
  have hopen : Source.open (.reader (Archive.write (items.map (·.entry))) .finished
      Input.plainSchedule) fs₁ = .ok _ := rfl
  obtain ⟨summary, fs₂, hx, he⟩ := Extractor.extract_new (.of_limits limits) hopen
    hholds hadmits hroot hplace hfit
  refine ⟨hn, fs₂, ?_, ?_⟩
  · rw [runFileWith_pack hc hs hp, hx, h.summary_eq he]
  · exact hclock ▸ exactly_restored h hplace.absent (hplace.accepts _) he

end

theorem stands_holding (h : fs.HasPlaceFor name above loc) (content : List UInt8) :
    Item.Stands ⟨pathTo (name :: above), name, ⟨content, OutputFile.mode, fs.clock⟩⟩
      (OutputFile.holding fs (name :: loc) content) where
  node := by
    have hfree : OutputFile.IsFree fs (name :: loc) := ⟨h.absent, fun f => h.accepts (.file f)⟩
    have g : Grows (fun _ _ => True) fs (OutputFile.holding fs (name :: loc) content) :=
      hfree.grows_holding trivial
    have hl : (OutputFile.holding fs (name :: loc) content).locate .linkStatus
        (pathTo (name :: above)) = _ :=
      (h.leads.grows g).locate_cons h.isOrdinary h.no_nul rfl
    rw [if_pos h.fits] at hl
    exact linkStatus_eq_ok_iff.mpr ⟨_, hl, hfree.node?_holding content⟩
  name := fileName?_pathTo h.allOrdinary

theorem pack_new (hs : ∀ i ∈ items, i.Stands fs) (h : fs.HasPlaceFor name above loc)
    (compress : List UInt8 → List UInt8) :
    ∃ node, pack fs (pathTo (name :: above)) (items.map (·.path)) compress =
      .ok (items.length, fs.put (name :: loc) node) := by
  rw [pack_eq hs, h.leads.write_cons h.isOrdinary h.no_nul h.fits h.absent]
  exact ⟨_, rfl⟩

def Item.greeting (name : String) : Item :=
  ⟨pathTo [name], name, ⟨Entry.greeting.payload, OutputFile.mode, 0⟩⟩

theorem suits_greeting (hs : IsSafeComponent 255 name) (hn : name.utf8ByteSize ≤ 100) :
    Suits [Item.greeting name] {} where
  each :=
    have hsize : Entry.greeting.payload.length ≤ ({} : Limits).fileSize.toNat := by decide
    List.forall_mem_singleton.mpr ⟨hn, hs, Nat.le_trans hn (by decide),
      Nat.lt_of_le_of_lt (Nat.le_refl 6) (by decide), hsize⟩
  distinct := List.nodup_cons.mpr ⟨List.not_mem_nil, List.nodup_nil⟩
  files :=
    have hlength : 1 ≤ ({} : Limits).files.toNat := by decide
    hlength
  totalSize :=
    have hsize : Entry.greeting.payload.length + 0 ≤ ({} : Limits).totalSize.toNat := by decide
    hsize
  depth := by decide

theorem extract_pack_greeting :
    let fs := OutputFile.holding (FileSystem.root 0) ["hello.txt"] Entry.greeting.payload
    ∃ fs₁ fs₂, pack fs (pathTo ["a.tgz"]) [pathTo ["hello.txt"]] = .ok (1, fs₁) ∧
      Extractor.runFile {} (pathTo ["a.tgz"]) (pathTo ["out"]) fs₁ =
        .ok { filesWritten := 1, bytesExtracted := 6 } fs₂ ∧
      Exactly (IsRestored [Item.greeting "hello.txt"] ["out"] 0) fs₁ fs₂ := by
  intro fs
  have hroot {name : String} (hn : IsFileName name) : (FileSystem.root 0).HasPlaceFor name [] [] :=
    .of_root hn rfl
  have harchive : fs.HasPlaceFor "a.tgz" [] [] := (hroot (by decide)).put rfl (by decide) _
  have hplace : fs.HasPlaceFor "out" [] [] := (hroot (by decide)).put rfl (by decide) _
  have hs : ∀ i ∈ [Item.greeting "hello.txt"], i.Stands fs :=
    List.forall_mem_singleton.mpr (stands_holding (hroot (by decide)) _)
  obtain ⟨node, hp⟩ := pack_new hs harchive Gzip.store
  have hplace := hplace.put harchive.absent (by decide) node
  have hroom : ∀ i ∈ [Item.greeting "hello.txt"],
      (pathTo [i.name, "out"]).text.utf8ByteSize ≤ maxPathBytes := by
    rw [List.forall_mem_singleton, utf8ByteSize_pathTo (by decide)]
    decide
  obtain ⟨-, fs₂, hrun, he⟩ := extract_pack Input.Decoder.finds_unpack_store hs
    (suits_greeting (by decide) (by decide)) hp (Destination.root_pathTo hplace.allOrdinary _)
    hplace hroom
  exact ⟨_, fs₂, hp, hrun, he⟩

theorem exists_pack_greeting {archive : String} (hclock : fs.clock = 0)
    (hfile : fs.HasPlaceFor name [] []) (harchive : fs.HasPlaceFor archive [] [])
    (hne : archive ≠ name) :
    let fs := OutputFile.holding fs [name] Entry.greeting.payload
    (∀ i ∈ [Item.greeting name], i.Stands fs) ∧ fs.HasPlaceFor archive [] [] ∧
      ∃ node, pack fs (pathTo [archive]) [pathTo [name]] = .ok (1, fs.put [archive] node) := by
  intro fs
  have hs : ∀ i ∈ [Item.greeting name], i.Stands fs := by
    rw [List.forall_mem_singleton, Item.greeting, ← hclock]
    exact stands_holding hfile Entry.greeting.payload
  have hplace : fs.HasPlaceFor archive [] [] :=
    harchive.put hfile.absent (fun he => hne (List.singleton_inj.mp he)) _
  exact ⟨hs, hplace, pack_new hs hplace Gzip.store⟩

-- What was packed is not extracted, though nothing is at the destination, and a directory above it.
structure IsStuck (fs : FileSystem) (items : List Item) (archive destination : Path) : Prop where
  stands : ∀ i ∈ items, i.Stands fs
  suits  : Suits items {}
  stuck  : ∃ fs₁ l, pack fs archive (items.map (·.path)) = .ok (items.length, fs₁) ∧
    fs₁.locate .linkStatus destination = .ok l ∧ fs₁.node? l = none ∧
    ¬ ∃ summary fs₂, Extractor.runFile {} archive destination fs₁ = .ok summary fs₂

theorem isStuck_greeting {destination : Path} (hclock : fs.clock = 0)
    (hsafe : IsSafeComponent 255 name) (hshort : name.utf8ByteSize ≤ 100)
    (hfile : fs.HasPlaceFor name [] []) (harchive : fs.HasPlaceFor "a.tar" [] [])
    (hne : "a.tar" ≠ name)
    (h : ∀ fs₁, Grows (fun _ _ => True) fs fs₁ →
      fs₁.node? [name] = some (.file (Item.greeting name).file) →
      (∀ l, l ≠ [name] → l ≠ ["a.tar"] → fs₁.node? l = fs.node? l) →
      ∃ l, fs₁.locate .linkStatus destination = .ok l ∧ fs₁.node? l = none ∧
        ¬ ∃ summary fs₂, Extractor.extract {} (.reader
          (Archive.write ([Item.greeting name].map (·.entry))) .finished Input.plainSchedule)
          destination fs₁ = .ok summary fs₂) :
    IsStuck (OutputFile.holding fs [name] Entry.greeting.payload) [Item.greeting name]
      (pathTo ["a.tar"]) destination := by
  have hsuits := suits_greeting hsafe hshort
  obtain ⟨hs, hplace, node, hp⟩ := exists_pack_greeting hclock hfile harchive hne
  have g₁ : Grows (fun _ _ => True) fs (OutputFile.holding fs [name] Entry.greeting.payload) :=
    Grows.put hfile.absent trivial
  have g₂ : Grows (fun _ _ => True) (OutputFile.holding fs [name] Entry.greeting.payload)
      ((OutputFile.holding fs [name] Entry.greeting.payload).put ["a.tar"] node) :=
    Grows.put hplace.absent trivial
  have hthere := g₂.kept (node?_put_self (hfile.accepts _))
  rw [hclock] at hthere
  obtain ⟨l, hl, hn, hnot⟩ := h _ (g₁.trans g₂) hthere fun l hl hl' =>
    (node?_put_of_ne hl').trans (node?_put_of_ne hl)
  refine ⟨hs, hsuits, _, l, hp, hl, hn, ?_⟩
  rwa [Extractor.runFile, runFileWith_pack Input.Decoder.finds_unpack_store hs hp]

end

section Deep

def long (n : Nat) : String :=
  String.ofList (List.replicate n 'a')

-- A link that leads to the directory it is in.
def looped : FileSystem :=
  (FileSystem.root 0).put [long 255] (.link ".")

variable {n : Nat} {bound : UInt64} {s : String}

theorem utf8ByteSize_long (n : Nat) : (long n).utf8ByteSize = n := by
  have hsize : 'a'.utf8Size = 1 := by decide
  rw [long, utf8ByteSize_ofList, byteLength_replicate, hsize, Nat.mul_one]

theorem isSafeComponent_long (hn : n ≠ 0) (hb : n ≤ bound.toNat) :
    IsSafeComponent bound (long n) := by
  have htoList : (long n).toList = List.replicate n 'a' := String.toList_ofList
  have hdots : ¬ contains ['.', '.'] (long n).toList := by
    intro h
    rw [contains_iff, htoList] at h
    have hm : '.' ∈ List.replicate n 'a' := h.subset List.mem_cons_self
    cases List.eq_of_mem_replicate hm
  refine ⟨?_, (utf8ByteSize_long n).symm ▸ hb, ?_, ?_, hdots, ?_⟩
  all_goals rw [htoList]
  · simpa using hn
  · simp [List.head?_replicate, hn]
  · simp [List.getLast?_replicate, hn]
  · rw [List.all_replicate, if_neg hn]
    decide

theorem isFileName_long (hn : n ≠ 0) (hb : n ≤ 255) : IsFileName (long n) :=
  have h : IsSafeComponent 255 (long n) := isSafeComponent_long hn hb
  h.isOrdinary.isFileName h.no_nul ((utf8ByteSize_long n).symm ▸ hb)

theorem long_ne (hn : s.utf8ByteSize ≠ n) : s ≠ long n := by
  rintro rfl
  exact hn (utf8ByteSize_long n)

theorem hasPlaceFor_looped (hs : IsFileName s) (hne : s ≠ long 255) :
    looped.HasPlaceFor s [] [] :=
  (HasPlaceFor.of_root hs rfl).put rfl (by simpa using hne) _

-- Each time it is followed, one more of the links that may be followed is used up.
theorem walks_looped (k n : Nat) :
    Walks looped .status (k + n) [] (List.replicate n (long 255)) [] := by
  have hname := isFileName_long (n := 255) (by decide) (by decide)
  have hlink : looped.node? [long 255] = some (.link ".") :=
    node?_put_self ((HasPlaceFor.of_root hname rfl).accepts _)
  induction n with
  | zero => exact .done
  | succ n ih =>
    exact .follow "." hlink (Purpose.status.not_refusesSlash rfl _) (fun _ => rfl)
      (.skip (.inr rfl) ih)

theorem leads_looped (hn : n ≤ maxLinks)
    (hp : (pathTo (List.replicate n (long 255))).text.utf8ByteSize ≤ maxPathBytes) :
    looped.Leads (List.replicate n (long 255)) [] := by
  have hname := isFileName_long (n := 255) (by decide) (by decide)
  induction n with
  | zero => exact .nil _
  | succ n ih =>
    have hl := ih (by omega) (Nat.le_trans (utf8ByteSize_pathTo_le_cons _ (long 255)) hp)
    obtain ⟨k, hk⟩ := Nat.exists_eq_add_of_le' hn
    exact {
      ordinary := hl.ordinary.cons (isOrdinary_of_isFileName hname)
      text := (hl.checkText_cons hname.2.2.2.2.1).trans (if_pos hp)
      walks := by
        rw [List.reverse_replicate, hk]
        exact walks_looped k (n + 1)
      isDirectory := looped.root_isDirectory }

theorem isStuck_deep :
    IsStuck (OutputFile.holding looped [long 100] Entry.greeting.payload)
      [Item.greeting (long 100)] (pathTo ["a.tar"])
      (pathTo (long 158 :: List.replicate 15 (long 255))) := by
  have hdeep : ((List.replicate 15 (long 255)).map fun s => s.utf8ByteSize + 1).sum = 3840 := by
    rw [List.map_replicate, List.sum_replicate, utf8ByteSize_long]
    rfl
  have hsize : (pathTo (long 158 :: List.replicate 15 (long 255))).text.utf8ByteSize = 3999 := by
    rw [utf8ByteSize_pathTo (List.cons_ne_nil _ _), List.map_cons, List.sum_cons, hdeep,
      utf8ByteSize_long]
  have hshort : (pathTo (long 158 :: List.replicate 15 (long 255))).text.utf8ByteSize ≤
      maxPathBytes :=
    hsize ▸ by decide
  have habove : (pathTo (List.replicate 15 (long 255))).text.utf8ByteSize ≤ maxPathBytes :=
    Nat.le_trans (utf8ByteSize_pathTo_le_cons _ (long 158)) hshort
  have hfile : looped.HasPlaceFor (long 100) [] [] :=
    hasPlaceFor_looped (isFileName_long (by decide) (by decide))
      (long_ne (by rw [utf8ByteSize_long]; decide))
  have harchive : looped.HasPlaceFor "a.tar" [] [] :=
    hasPlaceFor_looped (by decide) (long_ne (by decide))
  have hroot : looped.HasPlaceFor (long 158) [] [] :=
    hasPlaceFor_looped (isFileName_long (by decide) (by decide))
      (long_ne (by rw [utf8ByteSize_long]; decide))
  have hplace : looped.HasPlaceFor (long 158) (List.replicate 15 (long 255)) [] :=
    ⟨leads_looped (by decide) habove, hroot.fileName, hroot.absent, hshort⟩
  have hsafe : IsSafeComponent 255 (long 100) := isSafeComponent_long (by decide) (by decide)
  refine isStuck_greeting clock_put hsafe (utf8ByteSize_long 100).le hfile harchive
    (long_ne (by decide)) fun fs₁ g _ hother => ?_
  have hfresh : fs₁.node? [long 158] = none := by
    have hne : "a.tar" ≠ long 158 := long_ne (by decide)
    have hne' : long 100 ≠ long 158 := long_ne (by rw [utf8ByteSize_long]; decide)
    rw [hother _ (by simpa using hne'.symm) (by simpa using hne.symm), hroot.absent]
  have hplace := hplace.grows g hfresh
  refine ⟨_, hplace.locate, hplace.absent, ?_⟩
  rintro ⟨summary, fs₂, hrun⟩
  -- With its name of 100 bytes the file would be at a path of 4100.
  have hsuits := suits_greeting hsafe (utf8ByteSize_long 100).le
  have hroom := hsuits.room_of_extract hplace.allOrdinary
    (Destination.root_pathTo hplace.allOrdinary fs₁) hrun _ List.mem_cons_self
  have hlong : (Item.greeting (long 100)).name.utf8ByteSize = 100 := utf8ByteSize_long 100
  rw [utf8ByteSize_pathTo_cons, if_neg (List.cons_ne_nil _ _), hsize, hlong] at hroom
  exact absurd hroom (by decide)

end Deep

-- A link to a directory further down.
def crossed : FileSystem :=
  (((FileSystem.root 0).put ["d"] (.directory defaultDirectoryMode)).put ["e", "d"]
    (.directory defaultDirectoryMode)).put ["l"] (.link "d/e")

-- Behind the link, `..` leads to the directory above the one that it leads to.
theorem locate_crossed {fs : FileSystem} {new : Location → Node → Prop} (g : Grows new crossed fs)
    (hn : fs.node? ["out", "d"] = none) :
    fs.locate .linkStatus ⟨"/l/../out"⟩ = .ok ["out", "d"] := by
  have hd : fs.IsDirectory ["d"] := g.isDirectory (by decide)
  have he : fs.IsDirectory ["e", "d"] := g.isDirectory (by decide)
  have hl : fs.node? ["l"] = some (.link "d/e") := g.kept rfl
  have hr := Purpose.linkStatus.not_refusesSlash rfl
  have hlast : Walks fs .linkStatus 39 ["d"] ["out"] ["out", "d"] :=
    .last (by decide) (by decide) (by decide) (by decide) (by simp [IsDirectory, hn]) (by simp [hn])
  have hwalk : Walks fs .linkStatus maxLinks [] ["l", "..", "out"] ["out", "d"] :=
    .follow "d/e" hl (hr _) nofun (.enter hd (hr _) (.enter he (hr _) (.up hlast)))
  exact locate_eq_ok_iff.mpr ⟨by decide, hwalk⟩

theorem root_crossed (fs : FileSystem) :
    Destination.root fs ⟨"/l/../out"⟩ = .ok (pathTo ["out"]) := by
  have ha : Path.IsAbsolute ⟨"/l/../out"⟩ := by decide
  have habsolute : fs.absolute ⟨"/l/../out"⟩ = some ⟨"/l/../out"⟩ := by
    simp only [absolute, Path.absoluteIn, if_pos ha]
    decide
  rw [Destination.root, habsolute]
  decide

theorem isStuck_crossed :
    IsStuck (OutputFile.holding crossed ["out"] Entry.greeting.payload) [Item.greeting "out"]
      (pathTo ["a.tar"]) ⟨"/l/../out"⟩ := by
  have hfile : crossed.HasPlaceFor "out" [] [] := .of_root (by decide) rfl
  have harchive : crossed.HasPlaceFor "a.tar" [] [] := .of_root (by decide) rfl
  refine isStuck_greeting rfl (by decide) (by decide) hfile harchive (by decide)
    fun fs₁ g hthere hother => ?_
  have hnone : fs₁.node? ["out", "d"] = none := hother _ (by decide) (by decide)
  refine ⟨_, locate_crossed g hnone, hnone, ?_⟩
  exact Extractor.extract_onto_file (.nil fs₁) hfile.fileName hthere (root_crossed fs₁)

-- So there has to be room for the files, and the destination is the one that is left once it is
-- normalized.
theorem isStuck_deep_and_crossed :
    IsStuck (OutputFile.holding looped [long 100] Entry.greeting.payload)
      [Item.greeting (long 100)] (pathTo ["a.tar"])
      (pathTo (long 158 :: List.replicate 15 (long 255))) ∧
    IsStuck (OutputFile.holding crossed ["out"] Entry.greeting.payload) [Item.greeting "out"]
      (pathTo ["a.tar"]) ⟨"/l/../out"⟩ :=
  ⟨isStuck_deep, isStuck_crossed⟩

end Packing

end TarGuard
