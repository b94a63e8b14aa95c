import Mathlib.Tactic.TFAE
import TarGuard.Proofs.Below
import TarGuard.Proofs.Grammar

namespace TarGuard.EntryPath

open FileSystem

variable {limits : Limits} {root target target' : Path} {path other : String} {names : List String}

-- Two paths that differ in no more than one slash at the end.
def EqUpToSlash (s t : String) : Prop :=
  s = t ∨ s = t ++ "/" ∨ t = s ++ "/"

theorem eqUpToSlash_of_split_eq (h : split path = split other) : EqUpToSlash path other := by
  rcases eq_intercalate_split path with hp | hp <;>
    rcases eq_intercalate_split other with ho | ho <;> rw [hp, ho, h]
  · exact .inl rfl
  · exact .inr (.inr rfl)
  · exact .inr (.inl rfl)
  · exact .inl rfl

theorem split_append_slash_eq (h : ∀ w ∈ split (path ++ "/"), IsPiece w) :
    split (path ++ "/") = split path := by
  have hp := split_append_slash path
  have ht : path = "/".intercalate (split (path ++ "/")) := by
    rw [hp]
    exact Path.text_eq ⟨path⟩
  have hs := split_intercalate h (split_ne_nil _)
  rwa [← ht, eq_comm] at hs

theorem Accepted.isPiece (h : Accepted limits path) : ∀ w ∈ split path, IsPiece w :=
  fun w hw => (h.allOrdinary_split w hw).isPiece

theorem EqUpToSlash.split_eq (h : EqUpToSlash path other) (hp : Accepted limits path)
    (ho : Accepted limits other) : split path = split other := by
  rcases h with rfl | rfl | rfl
  · rfl
  · exact split_append_slash_eq hp.isPiece
  · exact (split_append_slash_eq ho.isPiece).symm

theorem resolve_eq_ok_iff : resolve limits root path = .ok target ↔
    ∃ names, components limits path = .ok names ∧
      target = names.foldl (fun p name => p.join ⟨name⟩) root := by
  constructor
  case mp => exact fun h => ⟨split path, eq_foldl_of_resolve h⟩
  case mpr =>
    rintro ⟨names, hc, rfl⟩
    exact resolve_eq_joined hc root

theorem resolve_eq_error_iff {e : ExtractError} :
    resolve limits root path = .error e ↔ components limits path = .error e := by
  cases hc : components limits path with
  | ok names => simp [resolve_eq_joined hc]
  | error e' => simp [resolve, hc, bind, Except.bind]

section Normal

variable (h : resolve limits root path = .ok target)

include h

theorem normalize_of_resolve :
    target.normalize = (split path).foldl (fun p name => p.join ⟨name⟩) root.normalize := by
  rw [(eq_foldl_of_resolve h).2,
    Path.normalize_joined (accepted_of_resolve h).allOrdinary_split]

theorem components_normalize_of_resolve :
    target.normalize.components = root.normalize.components ++ (split path).map .name := by
  rw [normalize_of_resolve h,
    Path.components_joined (accepted_of_resolve h).allOrdinary_split]

theorem tfae_normalize (h' : resolve limits root other = .ok target') :
    [target.normalize = target'.normalize, target.normalize.Alike target'.normalize,
      EqUpToSlash path other].TFAE := by
  have hp := accepted_of_resolve h
  have ho := accepted_of_resolve h'
  tfae_have 1 → 2 := congrArg Path.components
  tfae_have 2 → 3 := by
    intro ha
    rw [Path.Alike, components_normalize_of_resolve h, components_normalize_of_resolve h',
      List.append_cancel_left_eq, List.map_inj_right (by simp)] at ha
    exact eqUpToSlash_of_split_eq ha
  tfae_have 3 → 1 := by
    intro hs
    rw [normalize_of_resolve h, normalize_of_resolve h', hs.split_eq hp ho]
  tfae_finish

end Normal

-- A path leads somewhere if its grammar allows it: the second look never refuses what the first one
-- did not. It leads to the root with the names behind it, and no two paths lead to the same place,
-- if a slash at the end does not count.
theorem resolve_exact (limits : Limits) (root : Path) :
    (∀ path target, resolve limits root path = .ok target ↔
      ∃ names, components limits path = .ok names ∧
        target = names.foldl (fun p name => p.join ⟨name⟩) root) ∧
    (∀ path e, resolve limits root path = .error e ↔ components limits path = .error e) ∧
    (∀ path names target, components limits path = .ok names →
      resolve limits root path = .ok target →
      target.normalize.components = root.normalize.components ++ names.map .name) ∧
    ∀ path other target target', resolve limits root path = .ok target →
      resolve limits root other = .ok target' →
      [target.normalize = target'.normalize, target.normalize.Alike target'.normalize,
        EqUpToSlash path other].TFAE := by
  refine ⟨fun _ _ => resolve_eq_ok_iff, fun _ _ => resolve_eq_error_iff, ?_, ?_⟩
  · intro path names target hc h
    obtain ⟨rfl, _⟩ := accepted_of_components hc
    exact components_normalize_of_resolve h
  · exact fun _ _ _ _ => tfae_normalize

theorem resolve_exact_docs :
    let root : Path := ⟨"x/../r/."⟩
    let target : Path := ⟨"x/../r/./docs/a"⟩
    resolve {} root "docs/a" = .ok target ∧ resolve {} root "docs/a/" = .ok target ∧
      target.normalize.components = [.name "r", .name "docs", .name "a"] ∧
      EqUpToSlash "docs/a" "docs/a/" := by
  intro root target
  have h : resolve {} root "docs/a" = .ok target := by decide +kernel
  have h' : resolve {} root "docs/a/" = .ok target := by decide +kernel
  have hc : components {} "docs/a" = .ok ["docs", "a"] := by decide +kernel
  have hr : root.normalize.components = [.name "r"] := by decide +kernel
  obtain ⟨_, _, hnormal, hinj⟩ := resolve_exact {} root
  refine ⟨h, h', ?_, (hinj _ _ _ _ h h').out 0 2 |>.mp rfl⟩
  rw [hnormal _ _ _ hc h, hr]
  rfl

end TarGuard.EntryPath
