import TarGuard.Proofs.Entries
import TarGuard.Proofs.Limits

namespace TarGuard

open FileSystem SecureDirectory EntryPath

structure FileSystem.Exactly (new : Location → Node → Prop) (fs fs' : FileSystem) : Prop where
  kept  : ∀ l node, fs.node? l = some node → fs'.node? l = some node
  added : ∀ l node, fs.node? l = none → (fs'.node? l = some node ↔ new l node)

theorem FileSystem.Grows.exactly {new : Location → Node → Prop} {fs fs' : FileSystem}
    (g : Grows new fs fs')
    (h : ∀ l node, fs.node? l = none → new l node → fs'.node? l = some node) :
    Exactly new fs fs' where
  kept _ _ := g.kept
  added l node hn := ⟨g.added hn, h l node hn⟩

theorem FileSystem.Exactly.of_put {new : Location → Node → Prop} {fs fs' : FileSystem}
    {loc : Location} {node : Node} (h : Exactly new (fs.put loc node) fs')
    (hn : fs.node? loc = none) (ha : fs.Accepts loc node) (hnew : ∀ node', ¬ new loc node') :
    Exactly (fun l node' => l = loc ∧ node' = node ∨ new l node') fs fs' where
  kept l node' hl := by
    have hne : l ≠ loc := by
      rintro rfl
      cases hn.symm.trans hl
    exact h.kept l node' ((node?_put_of_ne hne).trans hl)
  added l node' hl := by
    by_cases he : l = loc
    case pos =>
      subst he
      rw [h.kept l node (node?_put_self ha), Option.some_inj]
      simp [hnew, eq_comm]
    case neg =>
      rw [h.added l node' ((node?_put_of_ne he).trans hl)]
      simp [he]

theorem FileSystem.Grows.node?_directory {new : Location → Node → Prop} {fs fs' : FileSystem}
    {l : Location} {mode : UInt32} (g : Grows new fs fs') (hn : fs.node? l = none)
    (hd : fs'.IsDirectory l) (hm : ∀ m, new l (.directory m) → m = mode) :
    fs'.node? l = some (.directory mode) := by
  have ⟨m, h⟩ := isDirectory_iff.mp hd
  rw [h, hm m (g.added hn h)]

namespace Entry.Provides

variable {base l : Location} {clock : Int} {e : Entry} {node : Node}

theorem directory_mode {m : UInt32} (h : e.Provides base clock l (.directory m)) : m = mode := by
  cases h with
  | above _ ht => exact Node.directory.inj ht.1
  | directory => rfl

end Entry.Provides

namespace Extractor

variable {x : Extractor} {s t u : Session} {base : Location} {names : List String} {e : Entry}
  {es : List Entry}

-- What entries add to the file system in which the destination is prepared, and what is counted.
structure HasEffect (x : Extractor) (names : List String) (base : Location) (es : List Entry)
    (fs fs' : FileSystem) (summary : Summary) : Prop where
  exactly   : Exactly (fun l node => ∃ e ∈ es, e.Provides base fs.clock l node) fs fs'
  fresh     : ∀ e ∈ es, e.header.kind = .regular → fs.node? (e.header.trail ++ base) = none
  file      : ∀ e ∈ es, e.header.kind = .regular →
    ∃ target, resolve x.limits (pathTo names) e.header.fullPath = .ok target ∧
      fs'.locate .status target = .ok (e.header.trail ++ base) ∧
      fs'.node? (e.header.trail ++ base) = some (.file ⟨e.payload, 0o600, fs.clock⟩)
  directory : ∀ e ∈ es, e.header.kind = .directory →
    ∃ target, resolve x.limits (pathTo names) e.header.fullPath = .ok target ∧
      fs'.locate .status target = .ok (e.header.trail ++ base) ∧
      fs'.IsDirectory (e.header.trail ++ base)
  no_link   : ∀ e ∈ es, e.header.kind ≠ .hardLink ∧ e.header.kind ≠ .symbolicLink
  distinct  : ((es.filter (·.header.kind = .regular)).map (·.header.trail)).Nodup
  length    : x.limits.files.toNat + 1 < UInt64.size → es.length ≤ x.limits.files.toNat
  filesWritten : summary.filesWritten = .ofNat (es.countP (·.header.kind = .regular))
  directoriesCreated : summary.directoriesCreated = .ofNat (es.countP (·.header.kind = .directory))
  entriesSkipped : summary.entriesSkipped =
    .ofNat (es.countP fun e => e.header.kind ≠ .regular ∧ e.header.kind ≠ .directory)
  bytesExtracted : summary.bytesExtracted.toNat = (es.map (·.header.size.toNat)).sum

namespace Completes

theorem located (h : x.Completes names base e s t) {new : Location → Node → Prop}
    (g : Grows new t.files u.files)
    (hk : e.header.kind = .directory ∨ e.header.kind = .regular) :
    u.files.locate .status (pathTo (e.header.trail ++ names)) = .ok (e.header.trail ++ base) := by
  apply locate_of_grows (h.added.located hk) g
  intro target ht
  cases hk with
  | inl hk =>
    have ⟨_, hd⟩ := isDirectory_iff.mp (g.isDirectory (h.added.directory hk))
    cases hd.symm.trans ht
  | inr hk => cases (g.kept (h.added.file hk)).symm.trans ht

end Completes

namespace Completed

theorem counter {f : Summary → UInt64} {p : Entry → Bool}
    (hf : ∀ (s : Summary) e, e.header.kind ≠ .hardLink ∧ e.header.kind ≠ .symbolicLink →
      f (s.with e.header) = f s + if p e then 1 else 0)
    (h : x.Completed names base es s t) : f t.summary = f s.summary + .ofNat (es.countP p) := by
  induction h with
  | nil => simp
  | @cons s t u e es hc _ ih =>
    rw [ih, hc.summary, hf _ _ hc.not_link, List.countP_cons, UInt64.ofNat_add]
    by_cases hp : p e
    · rw [if_pos hp, if_pos hp, UInt64.add_assoc, UInt64.add_comm 1]
      rfl
    · simp [hp]

theorem no_link (h : x.Completed names base es s t) (he : e ∈ es) :
    e.header.kind ≠ .hardLink ∧ e.header.kind ≠ .symbolicLink :=
  have ⟨_, _, _, _, _, hc, _⟩ := h.exists_completes he
  hc.not_link

theorem resolved (h : x.Completed names base es s t) (he : e ∈ es) :
    resolve x.limits (pathTo names) e.header.fullPath = .ok (pathTo (e.header.trail ++ names)) :=
  have ⟨_, _, _, _, _, hc, _⟩ := h.exists_completes he
  hc.resolved

theorem located (h : x.Completed names base es s t) (he : e ∈ es)
    (hk : e.header.kind = .directory ∨ e.header.kind = .regular) :
    t.files.locate .status (pathTo (e.header.trail ++ names)) = .ok (e.header.trail ++ base) :=
  have ⟨_, _, _, _, _, hc, h₂⟩ := h.exists_completes he
  hc.located h₂.grows hk

theorem directory (h : x.Completed names base es s t) (he : e ∈ es)
    (hk : e.header.kind = .directory) : t.files.IsDirectory (e.header.trail ++ base) :=
  have ⟨_, _, _, _, _, hc, h₂⟩ := h.exists_completes he
  h₂.grows.isDirectory (hc.added.directory hk)

theorem fresh (h : x.Completed names base es s t) (he : e ∈ es) (hk : e.header.kind = .regular) :
    s.files.node? (e.header.trail ++ base) = none :=
  have ⟨_, _, _, _, h₁, hc, _⟩ := h.exists_completes he
  h₁.grows.absent (hc.added.fresh hk)

theorem file (h : x.Completed names base es s t) (he : e ∈ es) (hk : e.header.kind = .regular) :
    t.files.node? (e.header.trail ++ base) =
      some (.file ⟨e.payload, OutputFile.mode, s.files.clock⟩) := by
  have ⟨_, _, _, _, h₁, hc, h₂⟩ := h.exists_completes he
  rw [← h₁.grows.clock]
  exact h₂.grows.kept (hc.added.file hk)

theorem file_iff (hc : x.Completed names base es s t) (l : Location) (f : File) :
    t.files.node? l = some (.file f) ↔ s.files.node? l = some (.file f) ∨
      ∃ e ∈ es, e.header.kind = .regular ∧ l = e.header.trail ++ base ∧
        f = ⟨e.payload, OutputFile.mode, s.files.clock⟩ := by
  constructor
  case mp =>
    intro h
    cases hn : s.files.node? l with
    | some node => exact .inl (by rw [← h, hc.grows.kept hn])
    | none =>
      have ⟨e, he, hw⟩ := hc.grows.added hn h
      cases hw with
      | above _ ht => cases ht.1
      | file hk => exact .inr ⟨e, he, hk, rfl, rfl⟩
  case mpr =>
    rintro (h | ⟨e, he, hk, rfl, rfl⟩)
    · exact hc.grows.kept h
    · exact hc.file he hk

theorem node? (h : x.Completed names base es s t) (he : e ∈ es)
    (hk : e.header.kind = .directory ∨ e.header.kind = .regular) :
    ∃ node, t.files.node? (e.header.trail ++ base) = some node := by
  cases hk with
  | inl hk =>
    have ⟨_, hm⟩ := isDirectory_iff.mp (h.directory he hk)
    exact ⟨_, hm⟩
  | inr hk => exact ⟨_, h.file he hk⟩

theorem distinct (h : x.Completed names base es s t) :
    ((es.filter (·.header.kind = .regular)).map (·.header.trail)).Nodup := by
  induction h with
  | nil => exact List.nodup_nil
  | @cons s t u e es hc hes ih =>
    by_cases hk : e.header.kind = .regular
    case neg => simpa [List.filter_cons, hk] using ih
    case pos =>
      simp only [List.filter_cons, hk, decide_true, if_true, List.map_cons, List.nodup_cons]
      refine ⟨fun hm => ?_, ih⟩
      have ⟨e', he', ht⟩ := List.mem_map.mp hm
      have ⟨he', hk'⟩ := List.mem_filter.mp he'
      have hn := hes.fresh he' (by simpa using hk')
      rw [ht, hc.added.file hk] at hn
      cases hn

theorem exactly (h : x.Completed names base es s t) :
    Exactly (fun l node => ∃ e ∈ es, e.Provides base s.files.clock l node) s.files t.files := by
  apply h.grows.exactly
  intro l node hn ⟨e, he, hw⟩
  have hdirectory (hd : t.files.IsDirectory l) : t.files.node? l = some (.directory mode) :=
    h.grows.node?_directory hn hd fun m ⟨e, _, hw⟩ => hw.directory_mode
  cases hw with
  | above hk ht =>
    have ⟨_, hm⟩ := h.node? he hk
    have hs := (ht.mono (List.tail_suffix e.header.trail)).suffix
    rw [ht.1]
    exact hdirectory (isDirectory_of_suffix hm hs (ht.ne_of_tail (trail_ne_nil e.header.fullPath)))
  | directory hk => exact hdirectory (h.directory he hk)
  | file hk => exact h.file he hk

theorem hasEffect (h : x.Completed names base es s t) (hn : s.seen = 0) (hs : s.summary = {}) :
    x.HasEffect names base es s.files t.files t.summary where
  exactly := h.exactly
  fresh _ := h.fresh
  file e he hk := ⟨_, h.resolved he, h.located he (.inr hk), h.file he hk⟩
  directory e he hk := ⟨_, h.resolved he, h.located he (.inl hk), h.directory he hk⟩
  no_link _ := h.no_link
  distinct := h.distinct
  length hf := by
    have ⟨hle, heq⟩ := h.seen_of_start hf hn
    exact heq ▸ UInt64.le_iff_toNat_le.mp hle
  filesWritten := by
    have hc := h.counter (f := Summary.filesWritten) (p := (·.header.kind = .regular)) ?_
    · simpa [hs] using hc
    · intro s e _
      cases hk : e.header.kind <;> simp [Summary.with, hk]
  directoriesCreated := by
    have hc := h.counter (f := Summary.directoriesCreated) (p := (·.header.kind = .directory)) ?_
    · simpa [hs] using hc
    · intro s e _
      cases hk : e.header.kind <;> simp [Summary.with, hk]
  entriesSkipped := by
    have hc := h.counter (f := Summary.entriesSkipped)
      (p := fun e => e.header.kind ≠ .regular ∧ e.header.kind ≠ .directory) ?_
    · simpa [hs] using hc
    · intro s e hl
      cases hk : e.header.kind <;> simp_all [Summary.with]
  bytesExtracted := (h.bytes_of_start hs).2

end Completed

theorem Begins.exactly {source : Source} {destination : Path} {fs : FileSystem}
    (h : Begins source destination fs names base s) :
    Exactly (s.files.IsPart names) fs s.files := by
  apply h.grows.exactly
  intro l node hn ⟨hw, q, _, hl⟩
  rw [hw]
  exact h.grows.node?_directory hn hl.isDirectory fun m hm => Node.directory.inj hm.1

theorem Begins.file_iff {source : Source} {destination : Path} {fs fs' : FileSystem}
    {new : Location → Node → Prop} (h : Begins source destination fs names base s)
    (hc : x.Completed names base es s t) (g : Grows new t.files fs')
    (hd : ∀ l node, new l node → node.isDirectory) (l : Location) (f : File) :
    fs'.node? l = some (.file f) ↔ fs.node? l = some (.file f) ∨
      ∃ e ∈ es, e.header.kind = .regular ∧ l = e.header.trail ++ base ∧
        f = ⟨e.payload, OutputFile.mode, fs.clock⟩ := by
  rw [g.file_iff hd, hc.file_iff, h.grows.file_iff fun _ _ hp => hp.isDirectory, h.grows.clock]

theorem extract_exact (x : Extractor) (source : Source) (destination : Path) (fs : FileSystem) :
    Ends (x.extract source destination) fs
      (fun summary fs' => ∃ names base s es, Begins source destination fs names base s ∧
        Exactly (s.files.IsPart names) fs s.files ∧
        Archive.entries? x.limits.componentLength s.input.remaining = some es ∧
        x.HasEffect names base es s.files fs' summary)
      (fun _ _ => True) := by
  refine (extract_ends x source destination fs).imp ?_ fun _ _ _ => trivial
  intro summary fs' ⟨names, base, s, u, t, h, hs, ht⟩
  have hb := h.begins
  have ⟨n, hp⟩ := h.passes
  have ⟨es, _, hc⟩ := hp.completed hb.leads
  have ⟨hf, hsum, hlast⟩ := (record_ends x (hc.leads hb.leads)).of_ok h.last
  have hj := Source.joints_of_open hb.opens
  refine ⟨names, base, s, es, hb, hb.exactly, hc.entries? hj ?_, ?_⟩
  · exact hlast (hc.joints.trans hj)
  · rw [ht, hs, hf, hsum]
    exact hc.hasEffect hb.seen hb.summary

end Extractor
end TarGuard
