import TarGuard.Proofs.Extract

namespace TarGuard

open FileSystem SecureDirectory

structure IsPrivateBelow (base l : Location) (node : Node) : Prop where
  below : base <:+ l
  ne    : l ≠ base
  mode  : node = .directory 0o700 ∨ ∃ f, node = .file f ∧ f.mode = 0o600

-- Where a new node comes from. Those on the way to the destination are there as soon as that is
-- prepared. All others stand below the directory that the destination really is, and no link leads
-- to them from there.
inductive IsConfined (fs fs' : FileSystem) (destination : Path) (l : Location) (node : Node) : Prop
  | way {root p} : Destination.root fs destination = .ok root → p ∈ root :: root.parents →
    fs'.locate .status p = .ok l → node = .directory 0o755 →
    (finalState (Destination.prepare root) fs).node? l = some node →
    IsConfined fs fs' destination l node
  | below {root base} : Destination.root fs destination = .ok root →
    fs'.locate .status root = .ok base → IsPrivateBelow base l node →
    (∀ m, base <:+ m → m <:+ l → m ≠ l → fs'.IsDirectory m) → IsConfined fs fs' destination l node

-- What is there stays as it is, what is new is confined, and no link is new.
structure Confined (fs fs' : FileSystem) (destination : Path) : Prop where
  kept  : ∀ l node, fs.node? l = some node → fs'.node? l = some node
  added : ∀ l node, fs.node? l = none → fs'.node? l = some node →
    IsConfined fs fs' destination l node
  links : ∀ l target, fs'.node? l = some (.link target) → fs.node? l = some (.link target)

variable {fs fs' : FileSystem} {base l : Location} {node : Node}

theorem IsConfined.not_link {destination : Path} {target : String}
    (h : IsConfined fs fs' destination l (.link target)) : False := by
  cases h with
  | way _ _ _ hn => cases hn
  | below _ _ hb =>
    cases hb.mode
    case inl h => cases h
    case inr h =>
      have ⟨_, h, _⟩ := h
      cases h

namespace Confined

variable {destination : Path}

theorem of_added (kept : ∀ l node, fs.node? l = some node → fs'.node? l = some node)
    (added : ∀ l node, fs.node? l = none → fs'.node? l = some node →
      IsConfined fs fs' destination l node) : Confined fs fs' destination where
  kept := kept
  added := added
  links l target h := by
    cases hl : fs.node? l with
    | none => exact (added l _ hl h).not_link.elim
    | some node => exact (kept l node hl).symm.trans h

theorem refl (fs : FileSystem) : Confined fs fs destination :=
  of_added (fun _ _ h => h) fun _ _ h₁ h₂ => nomatch h₁.symm.trans h₂

end Confined

theorem SecureDirectory.IsOnTrail.isPrivateBelow {trail : List String}
    (h : IsOnTrail base trail l node) : IsPrivateBelow base l node :=
  ⟨h.below.1, h.below.2, .inl h.1⟩

theorem Entry.Provides.isPrivateBelow {e : Entry} {clock : Int} (h : e.Provides base clock l node) :
    IsPrivateBelow base l node := by
  have ⟨hb, hne⟩ := e.header.trail_below base
  cases h with
  | above _ ht => exact ht.isPrivateBelow
  | directory => exact ⟨hb, hne, .inl rfl⟩
  | file => exact ⟨hb, hne, .inr ⟨_, rfl, rfl⟩⟩

namespace Extractor

variable {x : Extractor} {source : Source} {destination : Path} {names : List String}
  {s t : Session}

theorem MayLeave.isPrivateBelow {h : Header} {root : List String}
    (hw : x.MayLeave root base h l node) : IsPrivateBelow base l node := by
  have ⟨hb, hne⟩ := h.trail_below base
  cases hw with
  | above _ ht => exact ht.isPrivateBelow
  | directory => exact ⟨hb, hne, .inl rfl⟩

theorem Begins.confined (h : Begins source destination fs names base s)
    (g : Grows (IsPrivateBelow base) s.files fs') : Confined fs fs' destination := by
  have hl := h.leads.grows g
  refine .of_added (fun l node hn => g.kept (h.grows.kept hn)) fun l node h₁ h₂ => ?_
  cases hs : s.files.node? l with
  | some n =>
    cases (g.kept hs).symm.trans h₂
    have ⟨hn, q, hq, hp⟩ := h.grows.added h₁ hs
    apply IsConfined.way h.root (mem_parents_pathTo h.leads.ordinary hq) (hp.grows g).locate hn
    rw [finalState_of_ok h.prepares, hs]
  | none =>
    have hb := g.added hs h₂
    refine IsConfined.below h.root hl.locate hb fun m _ hm hne => ?_
    exact isDirectory_of_suffix h₂ hm hne

theorem Passes.grows_isPrivateBelow {n : Nat} (h : x.Passes (pathTo names) n s t)
    (hl : s.files.Leads names base) : Grows (IsPrivateBelow base) s.files t.files := by
  have ⟨es, _, hc⟩ := h.completed hl
  exact hc.grows.mono fun l node ⟨e, _, hw⟩ => hw.isPrivateBelow

theorem Succeeds.grows_isPrivateBelow {u : Session}
    (h : x.Succeeds source destination fs names base s u t) :
    Grows (IsPrivateBelow base) s.files t.files := by
  have ⟨n, hp⟩ := h.passes
  have hl := (hp.leads h.begins.leads)
  have ⟨ht, _⟩ := (record_ends x hl).of_ok h.last
  rw [ht]
  exact hp.grows_isPrivateBelow h.begins.leads

theorem Fails.confined {e : ExtractError} (h : x.Fails source destination fs e fs') :
    Confined fs fs' destination := by
  cases h with
  | opening => exact .refl fs
  | root => exact .refl fs
  | preparing _ ho hr hp =>
    have ⟨g, _⟩ := (Destination.prepare_ends fs ho).of_error hp
    refine .of_added (fun l node => g.kept) fun l node h₁ h₂ => ?_
    have ⟨hn, q, hq, _, hl⟩ := g.added h₁ h₂
    apply IsConfined.way hr (mem_parents_pathTo ho hq) hl.locate hn
    rw [finalState_of_error hp, h₂]
  | record hb hp hu =>
    have ⟨g, _⟩ := (record_ends x (hp.leads hb.leads)).of_error hu
    refine hb.confined ((hp.grows_isPrivateBelow hb.leads).trans (g.mono fun l node hw => ?_))
    have ⟨h, _, hw⟩ := hw
    exact hw.isPrivateBelow

-- Whatever the archive, the limits and the time of an interruption, and whether the extraction
-- succeeds or fails.
theorem extract_confined (x : Extractor) (source : Source) (destination : Path) (fs : FileSystem) :
    Confined fs (finalState (x.extract source destination) fs) destination := by
  have h := extract_ends x source destination fs
  cases hx : x.extract source destination fs with
  | ok summary fs' =>
    have ⟨names, base, s, u, t, hs, _, ht⟩ := h.of_ok hx
    rw [finalState_of_ok hx, ht]
    exact hs.begins.confined hs.grows_isPrivateBelow
  | error e fs' =>
    rw [finalState_of_error hx]
    exact (h.of_error hx).confined

end Extractor
end TarGuard
