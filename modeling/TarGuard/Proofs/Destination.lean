import TarGuard.Extraction.Destination
import TarGuard.Proofs.Ends
import TarGuard.Proofs.Leads

namespace TarGuard

namespace FileSystem

variable {fs fs₁ fs₂ : FileSystem} {names : List String} {l : Location} {node : Node}

def IsPart (fs : FileSystem) (names : List String) (l : Location) (node : Node) : Prop :=
  node = .directory defaultDirectoryMode ∧ ∃ q, q <:+ names ∧ fs.Leads q l

theorem IsPart.grows {new : Location → Node → Prop} (g : Grows new fs₁ fs₂)
    (h : fs₁.IsPart names l node) : fs₂.IsPart names l node :=
  have ⟨hn, q, hq, hl⟩ := h
  ⟨hn, q, hq, hl.grows g⟩

theorem IsPart.mono {names' : List String} (hs : names <:+ names') (h : fs.IsPart names l node) :
    fs.IsPart names' l node :=
  have ⟨hn, q, hq, hl⟩ := h
  ⟨hn, q, hq.trans hs, hl⟩

theorem IsPart.isDirectory (h : fs.IsPart names l node) : node.isDirectory := by
  rw [h.1]
  rfl

def IsAbove (fs : FileSystem) (names : List String) (l : Location) (node : Node) : Prop :=
  node = .directory defaultDirectoryMode ∧ ∃ q, q <:+ names ∧ q ≠ names ∧ fs.Leads q l

theorem IsPart.isAbove {name : String} (h : fs.IsPart names l node) :
    fs.IsAbove (name :: names) l node := by
  have ⟨hn, q, hq, hl⟩ := h
  refine ⟨hn, q, hq.trans (List.suffix_cons name names), fun he => ?_, hl⟩
  have := hq.length_le
  simp only [he, List.length_cons] at this
  omega

theorem IsAbove.isPart (h : fs.IsAbove names l node) : fs.IsPart names l node :=
  have ⟨hn, q, hq, _, hl⟩ := h
  ⟨hn, q, hq, hl⟩

theorem eq_put_of_makeDirectory {p : Path} {mode : UInt32} (h : fs.makeDirectory p mode = .ok fs₁) :
    ∃ l, fs.locateNewDirectory p = .ok l ∧ fs.node? l = none ∧
      fs₁ = fs.put l (.directory mode) := by
  unfold makeDirectory at h
  cases hl : fs.locateNewDirectory p with
  | error e => simp [hl, bind, Except.bind] at h
  | ok l =>
    simp only [hl, bind, Except.bind] at h
    split at h <;> cases h
    exact ⟨l, rfl, ‹_›, rfl⟩

theorem Leads.put {mode : UInt32} (ho : AllOrdinary names)
    (h : fs.locateNewDirectory (pathTo names) = .ok l) (hn : fs.node? l = none)
    (ha : fs.Accepts l (.directory mode)) : (fs.put l (.directory mode)).Leads names l := by
  rw [locateNewDirectory_pathTo ho] at h
  have ⟨ht, hw⟩ := walks_of_locate ho h
  have g : Grows (fun _ _ => True) fs (fs.put l (.directory mode)) := Grows.put hn trivial
  refine ⟨ho, ht, hw.grows g fun t hl => ?_, isDirectory_put ha⟩
  cases (node?_put_self ha).symm.trans hl

theorem haveDirectory_ends (ho : AllOrdinary names) :
    Ends (haveDirectory (pathTo names)) fs
      (fun _ fs' => Grows (fs'.IsPart names) fs fs')
      (fun _ fs' => fs' = fs) := by
  apply Ends.get_bind
  cases hm : fs.makeDirectory (pathTo names) defaultDirectoryMode with
  | ok fs₁ =>
    apply Ends.set
    have ⟨l, hl, hn, he⟩ := eq_put_of_makeDirectory hm
    subst he
    by_cases ha : fs.Accepts l (.directory defaultDirectoryMode)
    case pos => exact Grows.put hn ⟨rfl, names, List.suffix_rfl, .put ho hl hn ha⟩
    case neg =>
      rw [put_of_not_accepts ha]
      exact Grows.refl fs
  | error e =>
    apply Ends.get_bind
    by_cases hd : fs.isDirectoryAt (pathTo names)
    · simp only [hd, if_true]
      exact Ends.pure (Grows.refl fs)
    · simp only [hd]
      exact Ends.throw rfl

theorem haveDirectories_cons {p : Path} {above : List Path} {done : Unit → FileSystem → Prop}
    {failed : SystemError → FileSystem → Prop} (hp : p ≠ .empty)
    (h : Ends (haveDirectory p) fs done failed)
    (h' : Ends (haveDirectories above >>= fun _ => haveDirectory p) fs done failed) :
    Ends (haveDirectories (p :: above)) fs done failed := by
  rw [haveDirectories, if_neg hp]
  apply Ends.get_bind
  split
  · exact h'
  · exact h

theorem pathTo_ne_empty (names : List String) : pathTo names ≠ .empty := fun he =>
  text_pathTo_ne_empty names (congrArg Path.text he)

theorem haveDirectories_ends (ho : AllOrdinary names) :
    Ends (haveDirectories (names.tails.map pathTo)) fs
      (fun _ fs' => Grows (fs'.IsPart names) fs fs')
      (fun _ fs' => Grows (fs'.IsAbove names) fs fs') := by
  have hrefl (fs' : FileSystem) (h : fs' = fs) : Grows (fs'.IsAbove names) fs fs' :=
    h ▸ Grows.refl fs'
  induction names with
  | nil =>
    apply haveDirectories_cons (pathTo_ne_empty [])
    case h => exact (haveDirectory_ends ho).imp (fun _ _ g => g) fun _ => hrefl
    case h' => exact Ends.throw_bind (Grows.refl fs)
  | cons name names ih =>
    rw [List.tails_cons, List.map_cons]
    apply haveDirectories_cons (pathTo_ne_empty _)
    case h => exact (haveDirectory_ends ho).imp (fun _ _ g => g) fun _ => hrefl
    case h' =>
      refine (ih ho.tail fun fs' h => h ▸ Grows.refl fs').bind ?_ ?_
      · intro _ fs₁ g
        exact g.mono fun l node hw => hw.isPart.isAbove
      · intro _ fs₁ g
        refine (haveDirectory_ends ho).imp ?_ ?_
        · intro _ fs₂ g'
          exact Grows.trans (g.mono fun l node hw => (hw.grows g').isAbove.isPart) g'
        · intro _ fs₂ he
          rw [he]
          exact g.mono fun l node hw => hw.isAbove

theorem makeDirectories_ends (fs : FileSystem) (ho : AllOrdinary names) :
    Ends (makeDirectories (pathTo names)) fs
      (fun _ fs' => Grows (fs'.IsPart names) fs fs')
      (fun _ fs' => Grows (fs'.IsAbove names) fs fs') := by
  rw [makeDirectories, parents_pathTo ho]
  exact haveDirectories_ends ho

end FileSystem

namespace Destination

open FileSystem

variable {fs : FileSystem} {names : List String}

theorem prepare_ends (fs : FileSystem) (ho : AllOrdinary names) :
    Ends (prepare (pathTo names)) fs
      (fun _ fs' => Grows (fs'.IsPart names) fs fs' ∧ ∃ base, fs'.Leads names base)
      (fun e fs' => Grows (fs'.IsAbove names) fs fs' ∧ e = .directoryFailed) := by
  have hm := makeDirectories_ends fs ho
  refine (Ends.adaptExcept (hm.imp (fun _ _ g => g) fun _ _ g => ⟨g, rfl⟩)).bind
    (fun _ _ h => h) fun _ fs' g => ?_
  apply Ends.get_bind
  by_cases hd : fs'.isDirectoryAt (pathTo names)
  case pos =>
    simp only [hd]
    exact Ends.pure ⟨g, Leads.of_isDirectoryAt ho hd⟩
  case neg =>
    -- The last directory was not made, or it would be there.
    simp only [hd]
    refine Ends.throw ⟨g.mono fun l node ⟨hn, q, hq, hl⟩ => ⟨hn, q, hq, fun he => ?_, hl⟩, rfl⟩
    subst he
    exact hd hl.isDirectoryAt

end Destination
end TarGuard
