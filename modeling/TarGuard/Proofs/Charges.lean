import TarGuard.Proofs.Destination
import TarGuard.Proofs.Phases
import TarGuard.Proofs.Usage

namespace TarGuard

open FileSystem SecureDirectory EntryPath

inductive Header.Owns (h : Header) (base : Location) : Location → Node → Prop
  | directory {q mode} : q ≠ [] → q <:+ h.trail → Owns h base (q ++ base) (.directory mode)
  | file {f} : f.content.length ≤ h.size.toNat → Owns h base (h.trail ++ base) (.file f)

namespace Limits

structure Covers (l : Limits) (hs : List Header) : Prop where
  files     : hs.length ≤ l.files.toNat
  totalSize : (hs.map (·.size.toNat)).sum ≤ l.totalSize.toNat
  fileSize  : ∀ h ∈ hs, h.size.toNat ≤ l.fileSize.toNat
  pathDepth : ∀ h ∈ hs, h.trail.length ≤ l.pathDepth.toNat

-- What is new in a file system keeps within the limits. Of the directories only those below the
-- destination count.
structure Respected (l : Limits) (destination : Path) (fs fs' : FileSystem) : Prop where
  fileSize    : ∀ f ∈ newFiles fs fs', f.2.content.length ≤ l.fileSize.toNat
  totalSize   : ((newFiles fs fs').map (·.2.content.length)).sum ≤ l.totalSize.toNat
  files       : (newFiles fs fs').length ≤ l.files.toNat
  directories : ∀ root base, Destination.root fs destination = .ok root →
    fs'.locate .status root = .ok base →
    (newDirectories base fs fs').length ≤ l.files.toNat * l.pathDepth.toNat

theorem Covers.snoc {l : Limits} {hs : List Header} {h : Header} (hc : l.Covers hs)
    (files : hs.length + 1 ≤ l.files.toNat)
    (totalSize : (hs.map (·.size.toNat)).sum + h.size.toNat ≤ l.totalSize.toNat)
    (fileSize : h.size.toNat ≤ l.fileSize.toNat) (pathDepth : h.trail.length ≤ l.pathDepth.toNat) :
    l.Covers (hs ++ [h]) where
  files := by simpa using files
  totalSize := by simpa using totalSize
  fileSize := List.forall_mem_append.mpr ⟨hc.fileSize, by simpa using fileSize⟩
  pathDepth := List.forall_mem_append.mpr ⟨hc.pathDepth, by simpa using pathDepth⟩

theorem Covers.nil (l : Limits) : l.Covers [] where
  files := Nat.zero_le _
  totalSize := Nat.zero_le _
  fileSize _ hh := nomatch hh
  pathDepth _ hh := nomatch hh

theorem Respected.refl {l : Limits} (destination : Path) (fs : FileSystem) :
    l.Respected destination fs fs where
  fileSize f hf := by simp [newFiles_self] at hf
  totalSize := by simp [newFiles_self]
  files := by simp [newFiles_self]
  directories := by simp [newDirectories_self]

end Limits

def Header.places (h : Header) (base : Location) : List Location :=
  (List.range h.trail.length).map fun n => h.trail.drop n ++ base

theorem Header.mem_places {h : Header} {base q : Location} (hne : q ≠ []) (hq : q <:+ h.trail) :
    q ++ base ∈ h.places base := by
  have hp := List.length_pos_of_ne_nil hne
  have hl := hq.length_le
  refine List.mem_map.mpr ⟨h.trail.length - q.length, List.mem_range.mpr (by omega), ?_⟩
  rw [← List.suffix_iff_eq_drop.mp hq]

theorem length_flatMap_places_le {n : Nat} {hs : List Header} (base : Location)
    (h : ∀ h ∈ hs, h.trail.length ≤ n) : (hs.flatMap (·.places base)).length ≤ hs.length * n := by
  induction hs with
  | nil => simp
  | cons a hs ih =>
    have ⟨ha, hs'⟩ := List.forall_mem_cons.mp h
    have := ih hs'
    simp only [List.flatMap_cons, List.length_append, Header.places, List.length_map,
      List.length_range, List.length_cons, Nat.add_mul] at *
    omega

section Owned

variable {limits : Limits} {names : List String} {base l : Location} {fs fs₁ fs' : FileSystem}
  {hs : List Header} (g₀ : Grows (fs₁.IsPart names) fs fs₁)
  (g : Grows (fun l node => ∃ h ∈ hs, h.Owns base l node) fs₁ fs')

include g₀ g

theorem owned_of_mem_newFiles {f : File} (hm : (l, f) ∈ newFiles fs fs') :
    ∃ h ∈ hs, h.trail ++ base = l ∧ f.content.length ≤ h.size.toNat := by
  have ⟨h₁, h₂⟩ := of_mem_newFiles hm
  cases hn : fs₁.node? l with
  | some node =>
    cases (g.kept hn).symm.trans h₂
    cases (g₀.added h₁ hn).1
  | none =>
    have ⟨h, hh, ho⟩ := g.added hn h₂
    cases ho with
    | file hs => exact ⟨h, hh, rfl, hs⟩

theorem not_link_of_owned (hn : fs.node? l = none) (target : String) :
    fs'.node? l ≠ some (.link target) := by
  intro ht
  cases h₁ : fs₁.node? l with
  | some node =>
    cases (g.kept h₁).symm.trans ht
    cases (g₀.added hn h₁).1
  | none =>
    have ⟨_, _, ho⟩ := g.added h₁ ht
    cases ho

-- New directories strictly below the destination are those of records. What was made on the way to
-- the destination is not below it.
theorem owned_of_mem_newDirectories {b : Location} (ho : AllOrdinary names)
    (hb : fs'.locate .status (pathTo names) = .ok b) (hm : l ∈ newDirectories b fs fs') :
    ∃ h ∈ hs, ∃ q, q ≠ [] ∧ q <:+ h.trail ∧ q ++ base = l := by
  have ⟨h₁, ⟨mode, h₂⟩, hbelow, hne⟩ := of_mem_newDirectories hm
  cases hn : fs₁.node? l with
  | some node =>
    have ⟨_, q, hq, hl⟩ := g₀.added h₁ hn
    have habove : l <:+ b := by
      refine (hl.grows g).suffix_of_locate hq ho hb fun l' target hl' => ?_
      exact not_link_of_owned g₀ g (node?_of_suffix h₁ hl') target
    exact absurd (hbelow.eq_of_length_le habove.length_le).symm hne
  | none =>
    have ⟨h, hh, hw⟩ := g.added hn h₂
    cases hw with
    | directory hq hs => exact ⟨h, hh, _, hq, hs, rfl⟩

theorem respected_of_owned {destination : Path} (ho : AllOrdinary names)
    (hr : Destination.root fs destination = .ok (pathTo names)) (hc : limits.Covers hs) :
    limits.Respected destination fs fs' where
  fileSize f hf := by
    have ⟨h, hh, _, hs⟩ := owned_of_mem_newFiles g₀ g hf
    have := hc.fileSize h hh
    omega
  totalSize := by
    refine Nat.le_trans ?_ hc.totalSize
    apply sum_map_le_of_cover (nodup_newFiles fs fs')
    intro (l, f) hf
    exact owned_of_mem_newFiles g₀ g hf
  files := by
    have hlen : ((newFiles fs fs').map (·.1)).length ≤ (hs.map (·.trail ++ base)).length := by
      apply (nodup_newFiles fs fs').length_le_of_subset
      intro l hl
      have ⟨f, hf, he⟩ := List.mem_map.mp hl
      have ⟨h, hh, hl, _⟩ := owned_of_mem_newFiles g₀ g hf
      exact List.mem_map.mpr ⟨h, hh, hl.trans he⟩
    simp only [List.length_map] at hlen
    exact Nat.le_trans hlen hc.files
  directories root b hr' hb := by
    cases hr.symm.trans hr'
    have hlen : (newDirectories b fs fs').length ≤ (hs.flatMap (·.places base)).length := by
      apply (nodup_newDirectories b fs fs').length_le_of_subset
      intro l hl
      have ⟨h, hh, q, hq, hs, he⟩ := owned_of_mem_newDirectories g₀ g ho hb hl
      exact List.mem_flatMap.mpr ⟨h, hh, he ▸ Header.mem_places hq hs⟩
    calc (newDirectories b fs fs').length
      _ ≤ (hs.flatMap (·.places base)).length := hlen
      _ ≤ hs.length * limits.pathDepth.toNat := length_flatMap_places_le base hc.pathDepth
      _ ≤ limits.files.toNat * limits.pathDepth.toNat := Nat.mul_le_mul_right _ hc.files

end Owned

theorem respected_of_isPart {limits : Limits} {names : List String} {fs fs' : FileSystem}
    {destination : Path} (g : Grows (fs'.IsPart names) fs fs') (ho : AllOrdinary names)
    (hr : Destination.root fs destination = .ok (pathTo names)) :
    limits.Respected destination fs fs' := by
  have g' : Grows (fun l node => ∃ h ∈ ([] : List Header), h.Owns [] l node) fs' fs' :=
    Grows.refl fs'
  exact respected_of_owned g g' ho hr (.nil limits)

variable {base l : Location} {node : Node} {names : List String} {fs fs' : FileSystem} {h : Header}

theorem SecureDirectory.IsOnTrail.owns (hw : IsOnTrail base h.trail l node) :
    h.Owns base l node := by
  have ⟨hn, q, hq, hs, hl⟩ := hw
  subst hn hl
  exact .directory hq hs

theorem Entry.Provides.owns {e : Entry} {clock : Int} (hw : e.Provides base clock l node)
    (hl : e.payload.length = e.header.size.toNat) : e.header.Owns base l node := by
  cases hw with
  | above _ ht => exact (ht.mono (List.tail_suffix e.header.trail)).owns
  | directory => exact .directory (trail_ne_nil e.header.fullPath) List.suffix_rfl
  | file => exact .file (Nat.le_of_eq hl)

theorem Phase.Holds.grows_owns {p : Phase} (hh : p.Holds names base fs h fs') :
    Grows (h.Owns base) fs fs' := by
  cases hh with
  | making hd _ g =>
    have hs := (List.suffix_append _ _).trans (hd ▸ h.place_suffix)
    exact g.mono fun _ _ hw => (hw.mono hs).owns
  | filling hloc g hfree _ hsize =>
    refine (g.mono fun _ _ hw => hw.owns).trans (hfree.grows_holding ?_)
    rw [hloc]
    exact .file (by simp only; omega)
  | skipping g => exact g.mono fun _ _ hw => hw.owns

end TarGuard
