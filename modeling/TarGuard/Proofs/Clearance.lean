import TarGuard.Proofs.OutputFile
import TarGuard.Proofs.SecureDirectory

namespace TarGuard

open FileSystem

variable {fs fs' : FileSystem} {loc base : Location} {names root trail : List String}
  {name : String}

namespace SecureDirectory

def IsClear (fs : FileSystem) (root : List String) (base : Location) (trail : List String) : Prop :=
  ∀ name above, name :: above <:+ trail → Fits (above ++ root) name ∧
    (fs.node? (name :: (above ++ base)) = none ∨ fs.IsDirectory (name :: (above ++ base)))

theorem level_clear (h : fs.Leads names loc) (hn : IsOrdinary name) (hz : '\x00' ∉ name.toList)
    (hf : Fits names name) (hc : fs.node? (name :: loc) = none ∨ fs.IsDirectory (name :: loc)) :
    Ends (level (pathTo (name :: names))) fs (fun _ _ => True) (fun _ _ => False) := by
  rw [Ends, level_apply, h.makeDirectory_cons hn hz, h.linkStatus_cons hn hz, if_pos hf, if_pos hf]
  cases hc with
  | inl hc => rw [hc]; trivial
  | inr hc =>
    obtain ⟨mode, hm⟩ := isDirectory_iff.mp hc
    simp [hm, existing]

theorem IsClear.tail (h : IsClear fs root base (name :: trail)) : IsClear fs root base trail :=
  fun s above hs => h s above (hs.trans (List.suffix_cons name trail))

theorem clear_of_grows (g : Grows (IsOnTrail base trail) fs fs')
    (h : fs.node? loc = none ∨ fs.IsDirectory loc) :
    fs'.node? loc = none ∨ fs'.IsDirectory loc := by
  cases h with
  | inr h => exact .inr (g.isDirectory h)
  | inl h =>
    cases hn : fs'.node? loc with
    | none => exact .inl rfl
    | some node =>
      have hw := (g.added h hn).1
      exact .inr (isDirectory_of_node? (hw ▸ hn))

theorem make_clear (h : fs.Leads root base) (ho : AllOrdinary trail)
    (hz : ∀ s ∈ trail, '\x00' ∉ s.toList) (hc : IsClear fs root base trail) :
    Ends (make (pathTo root) (pathTo (trail ++ root))) fs (fun _ _ => True) (fun _ _ => False) := by
  induction trail with
  | nil =>
    rw [List.nil_append, make_of_alike rfl]
    exact Ends.pure trivial
  | cons name trail ih =>
    have hza : ∀ s ∈ trail, '\x00' ∉ s.toList := fun s hs => hz s (List.mem_cons_of_mem name hs)
    have ⟨hf, hn⟩ := hc name trail List.suffix_rfl
    rw [List.cons_append, make_cons (AllOrdinary.cons (ho.tail.append h.ordinary) ho.head)]
    refine ((ih ho.tail hza hc.tail).and (make_ends h ho.tail)).bind (fun _ _ h => h.1) ?_
    intro _ fs₁ ⟨_, g, hl⟩
    exact level_clear hl ho.head (hz name List.mem_cons_self) hf (clear_of_grows g hn)

end SecureDirectory

namespace OutputFile

theorem create_clear (h : fs.Leads names loc) (hn : IsOrdinary name) (hz : '\x00' ∉ name.toList)
    (hf : Fits names name) (hc : fs.node? (name :: loc) = none) :
    Ends (create none (pathTo (name :: names))) fs (fun _ _ => True) (fun _ _ => False) := by
  rw [Ends, create_apply, h.createFile_cons hn hz, if_pos hf, hc]
  trivial

end OutputFile
end TarGuard
