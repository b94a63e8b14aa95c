import TarGuard.Proofs.Extract

namespace TarGuard.Extractor

open FileSystem SecureDirectory EntryPath

variable {x : Extractor} {source : Source} {destination : Path} {fs : FileSystem}
  {names : List String} {base l : Location} {node : Node} {s : Session}

-- A directory that is left of the next record. It is on the way from `base` to where the entry is
-- to be, or it is the entry.
structure IsLeftOver (x : Extractor) (names : List String) (base : Location) (s : Session)
    (l : Location) (node : Node) (h : Header) : Prop where
  header   : x.NextHeader s h
  resolved : resolve x.limits (pathTo names) h.fullPath = .ok (pathTo (h.trail ++ names))
  mode     : node = .directory 0o700
  below    : base <:+ l ∧ l ≠ base
  above    : l <:+ h.trail ++ base
  entry    : l = h.trail ++ base → h.kind = .directory

-- Where a failure leaves the file system: as it was, or with directories above the destination, or
-- as it was after so many records, with directories that are left of the next.
inductive Leaves (x : Extractor) (source : Source) (destination : Path) (fs : FileSystem) :
    ExtractError → FileSystem → Prop
  | untouched {e} : source.open fs = .error e ∨ Destination.root fs destination = .error e →
    Leaves x source destination fs e fs
  | unprepared {e fs' root} : Destination.root fs destination = .ok root →
    Destination.prepare root fs = .error e fs' →
    Grows (fun l node => node = .directory 0o755 ∧
      ∃ p ∈ root.parents, fs'.locate .status p = .ok l) fs fs' →
    Leaves x source destination fs e fs'
  | record {e names base n s u t} : Begins source destination fs names base s →
    x.Passes (pathTo names) n s u → x.record (pathTo names) u = .error e t →
    Grows (fun l node => ∃ h, x.IsLeftOver names base u l node h) u.files t.files →
    (e ∈ ExtractError.refusals → t.files = u.files) → Leaves x source destination fs e t.files

theorem MayLeave.isLeftOver {h : Header} (hh : x.NextHeader s h)
    (hw : x.MayLeave names base h l node) : x.IsLeftOver names base s l node h := by
  cases hw with
  | above hr hw =>
    have hs := hw.mono (List.tail_suffix h.trail)
    have hne := hw.ne_of_tail (trail_ne_nil h.fullPath)
    exact ⟨hh, hr, hw.1, hw.below, hs.suffix, fun he => absurd he hne⟩
  | directory hr hk => exact ⟨hh, hr, rfl, h.trail_below base, List.suffix_rfl, fun _ => hk⟩

theorem extract_atomic (x : Extractor) (source : Source) (destination : Path) (fs : FileSystem) :
    Ends (x.extract source destination) fs (fun _ _ => True)
      (x.Leaves source destination fs) := by
  refine (extract_ends x source destination fs).imp (fun _ _ _ => trivial) ?_
  intro e fs' h
  cases h with
  | opening ho => exact .untouched (.inl ho)
  | root _ hr => exact .untouched (.inr hr)
  | preparing _ ho hr hp =>
    have ⟨g, _⟩ := (Destination.prepare_ends fs ho).of_error hp
    refine .unprepared hr hp (g.mono fun l node ⟨hn, q, hq, hne, hl⟩ => ?_)
    exact ⟨hn, pathTo q, mem_parents_pathTo_of_ne ho hq hne, hl.locate⟩
  | record hb hp hu =>
    have ⟨g, he⟩ := (record_ends x (hp.leads hb.leads)).of_error hu
    refine .record hb hp hu (g.mono fun l node ⟨h, hh, hw⟩ => ?_) he
    exact ⟨h, hw.isLeftOver hh⟩

end TarGuard.Extractor
