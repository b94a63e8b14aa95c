import TarGuard.Proofs.NormalForm

namespace TarGuard

open FileSystem

variable {limits : Limits} {path : String} {names root : List String}

theorem Path.normalize_pathTo (h : AllOrdinary names) :
    (pathTo names).normalize = pathTo names := by
  have hc : (pathTo names).normalComponents = .root :: names.reverse.map .name := by
    have hs : step [] .root = [.root] := rfl
    rw [normalComponents, components_pathTo h, List.foldl_cons, hs, foldl_step_names]
    simp
  rw [normalize, hc, ofComponents_names h.reverse, List.reverse_reverse]

namespace EntryPath

theorem checkBelow_joined (ho : AllOrdinary names) (hne : names ≠ []) (root : Path) :
    checkBelow root (names.foldl (fun p name => p.join ⟨name⟩) root) = .ok () :=
  if_pos (Path.isBelow_joined ho hne root)

theorem resolve_eq_joined (h : components limits path = .ok names) (root : Path) :
    resolve limits root path = .ok (names.foldl (fun p name => p.join ⟨name⟩) root) := by
  obtain ⟨rfl, ha⟩ := accepted_of_components h
  simp only [resolve, h, bind, Except.bind,
    checkBelow_joined ha.allOrdinary_split (split_ne_nil path)]
  rfl

theorem resolve_of_components (hr : AllOrdinary root) (h : components limits path = .ok names) :
    resolve limits (pathTo root) path = .ok (pathTo (trail path ++ root)) := by
  obtain ⟨rfl, ha⟩ := accepted_of_components h
  rw [resolve_eq_joined h, foldl_join_pathTo hr ha.allOrdinary_split, trail]

end EntryPath
end TarGuard
