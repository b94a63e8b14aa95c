import TarGuard.Extraction.Destination
import TarGuard.Proofs.PathTo

namespace TarGuard

open FileSystem

variable {p : Path}

namespace Path

theorem not_mem_of_mem_splitOn {α : Type} [DecidableEq α] {a : α} {xs l : List α}
    (h : l ∈ xs.splitOn a) : a ∉ l := by
  induction xs generalizing l with
  | nil => simp_all
  | cons x xs ih =>
    rw [List.splitOn_cons_eq_if_modifyHead] at h
    split at h
    case isTrue =>
      rcases List.mem_cons.mp h with rfl | h
      · exact List.not_mem_nil
      · exact ih h
    case isFalse hx =>
      have hne := List.splitOn_ne_nil a xs
      cases hs : xs.splitOn a with
      | nil => exact absurd hs hne
      | cons y ys =>
        rw [hs, List.modifyHead_cons] at h
        rcases List.mem_cons.mp h with rfl | h
        · have hy : a ∉ y := ih (hs ▸ List.mem_cons_self)
          simp only [beq_iff_eq] at hx
          simpa [hy] using Ne.symm hx
        · exact ih (hs ▸ List.mem_cons_of_mem _ h)

def IsMove (c : Component) : Prop :=
  c = .up ∨ ∃ s, IsOrdinary s ∧ c = .name s

theorem isMove_of_ofPiece? {s : String} {c : Component} (hs : '/' ∉ s.toList)
    (h : Component.ofPiece? s = some c) : IsMove c := by
  unfold Component.ofPiece? at h
  split at h <;> cases h
  · exact .inl rfl
  · exact .inr ⟨s, ⟨‹_›, ‹_›, ‹_›, hs⟩, rfl⟩

theorem split_of_isAbsolute (h : p.IsAbsolute) :
    ∃ rest, p.split = (.root, rest) ∧ ∀ s ∈ rest, '/' ∉ s.toList := by
  obtain ⟨cs, hcs⟩ : ∃ cs, p.text.toList = '/' :: cs := by
    unfold IsAbsolute at h
    cases ht : p.text.toList with
    | nil => simp [ht] at h
    | cons c cs =>
      rw [ht, List.head?_cons, Option.some.injEq] at h
      exact ⟨cs, by rw [h]⟩
  have hp : p.pieces = "" :: (cs.splitOn '/').map String.ofList := by
    rw [pieces, hcs, ← List.nil_append ('/' :: cs),
      List.splitOn_append_cons_self_of_not_mem List.not_mem_nil, List.map_cons]
  refine ⟨_, by simp only [split, hp, if_pos h]; rfl, ?_⟩
  intro s hs
  obtain ⟨l, hl, rfl⟩ := List.mem_map.mp hs
  simpa using not_mem_of_mem_splitOn hl

theorem components_of_isAbsolute (h : p.IsAbsolute) :
    ∃ cs, p.components = .root :: cs ∧ ∀ c ∈ cs, IsMove c := by
  obtain ⟨rest, hp, hr⟩ := split_of_isAbsolute h
  refine ⟨rest.filterMap Component.ofPiece?, by rw [components, hp]; rfl, ?_⟩
  intro c hc
  obtain ⟨s, hs, hc⟩ := List.mem_filterMap.mp hc
  exact isMove_of_ofPiece? (hr s hs) hc

theorem step_of_isMove {names : List String} {c : Component} (h : AllOrdinary names)
    (hc : IsMove c) : ∃ names', AllOrdinary names' ∧
      step (names.map .name ++ [.root]) c = names'.map .name ++ [.root] := by
  rcases hc with rfl | ⟨s, hs, rfl⟩
  · cases names with
    | nil => exact ⟨[], h, rfl⟩
    | cons s names => exact ⟨names, h.tail, rfl⟩
  · refine ⟨s :: names, h.cons hs, ?_⟩
    cases names <;> rfl

theorem foldl_step_of_isMove {names : List String} {cs : List Component} (h : AllOrdinary names)
    (hc : ∀ c ∈ cs, IsMove c) : ∃ names', AllOrdinary names' ∧
      cs.foldl step (names.map .name ++ [.root]) = names'.map .name ++ [.root] := by
  induction cs generalizing names with
  | nil => exact ⟨names, h, rfl⟩
  | cons c cs ih =>
    obtain ⟨names', h', hs⟩ := step_of_isMove h (hc c List.mem_cons_self)
    rw [List.foldl_cons, hs]
    exact ih h' fun d hd => hc d (List.mem_cons_of_mem c hd)

theorem ofComponents_names {names : List String} (h : AllOrdinary names) :
    ofComponents (.root :: names.map .name) = pathTo names.reverse := by
  have hr : empty.join ⟨"/"⟩ = pathTo [] := by
    rw [pathTo_nil]
    decide
  rw [ofComponents, List.foldl_cons, Component.text, hr, List.foldl_map]
  simpa [Component.text] using foldl_join_pathTo AllOrdinary.nil h

theorem exists_normalize_eq_pathTo (h : p.IsAbsolute) :
    ∃ names, AllOrdinary names ∧ p.normalize = pathTo names := by
  obtain ⟨cs, hp, hcs⟩ := components_of_isAbsolute h
  obtain ⟨names, hn, hf⟩ := foldl_step_of_isMove AllOrdinary.nil hcs
  refine ⟨names, hn, ?_⟩
  have hc : p.normalComponents = .root :: names.reverse.map .name := by
    rw [normalComponents, hp, List.foldl_cons]
    simpa [step] using hf
  rw [normalize, hc, ofComponents_names hn.reverse, List.reverse_reverse]

theorem isAbsolute_join {q : Path} (h : p.IsAbsolute) : (p.join q).IsAbsolute := by
  have ht : ∀ t : String, Path.IsAbsolute ⟨p.text ++ t⟩ := fun t => by
    simp only [IsAbsolute, String.toList_append, List.head?_append] at h ⊢
    simp [h]
  unfold join
  split
  · assumption
  · split
    · exact ht _
    · rw [String.append_assoc]
      exact ht _

theorem isAbsolute_foldl_join {cs : List Component} (h : p.IsAbsolute) :
    (cs.foldl (fun q c => q.join ⟨c.text⟩) p).IsAbsolute := by
  induction cs generalizing p with
  | nil => exact h
  | cons c cs ih => exact ih (isAbsolute_join h)

theorem isAbsolute_foldl_join_root {cs : List Component} :
    ((.root :: cs).foldl (fun q c => q.join ⟨c.text⟩) p).IsAbsolute := by
  have hr : (p.join ⟨Component.root.text⟩).IsAbsolute := by
    rw [join, if_pos (by decide)]
    decide
  rw [List.foldl_cons]
  exact isAbsolute_foldl_join hr

theorem isAbsolute_of_absoluteIn {current q : Path} (hc : current.IsAbsolute)
    (h : p.absoluteIn current = some q) : q.IsAbsolute := by
  have hend : ∀ b : Path, b.IsAbsolute →
      (if p.text.toList.getLast? = some '/' then b.join empty else b).IsAbsolute := by
    intro b hb
    split
    · exact isAbsolute_join hb
    · exact hb
  unfold absoluteIn at h
  split at h
  case isTrue => cases h
  case isFalse =>
    rw [Option.some.injEq] at h
    subst h
    apply hend
    split
    case isFalse => exact isAbsolute_foldl_join hc
    case isTrue ha =>
      split
      case isTrue =>
        have : IsAbsolute ⟨"//"⟩ := by decide
        exact isAbsolute_foldl_join this
      case isFalse =>
        obtain ⟨cs, hp, -⟩ := components_of_isAbsolute ha
        rw [hp]
        exact isAbsolute_foldl_join_root

end Path

theorem Destination.exists_root_eq_pathTo {fs : FileSystem} {destination root : Path}
    (h : Destination.root fs destination = .ok root) :
    ∃ names, AllOrdinary names ∧ root = pathTo names := by
  unfold Destination.root at h
  split at h <;> cases h
  exact Path.exists_normalize_eq_pathTo (Path.isAbsolute_of_absoluteIn (isAbsolute_pathTo _) ‹_›)

namespace EntryPath

variable {limits : Limits} {path : String} {names : List String}

theorem ne_slash_of_isAllowed {c : Char} (h : isAllowed c) : c ≠ '/' ∧ c ≠ '\x00' := by
  constructor <;> rintro rfl <;> exact absurd h (by decide)

theorem IsSafeComponent.isOrdinary {bound : UInt64} {s : String} (h : IsSafeComponent bound s) :
    IsOrdinary s where
  ne_empty := by simpa using h.1
  ne_here := by rintro rfl; exact h.2.2.1 (by decide)
  ne_up := by rintro rfl; exact h.2.2.1 (by decide)
  no_slash hm := (ne_slash_of_isAllowed (List.all_eq_true.mp h.2.2.2.2.2 _ hm)).1 rfl

theorem IsSafeComponent.no_nul {bound : UInt64} {s : String} (h : IsSafeComponent bound s) :
    '\x00' ∉ s.toList :=
  fun hm => (ne_slash_of_isAllowed (List.all_eq_true.mp h.2.2.2.2.2 _ hm)).2 rfl

structure Accepted (limits : Limits) (path : String) : Prop where
  depth : (split path).length ≤ limits.pathDepth.toNat
  safe  : ∀ s ∈ split path, IsSafeComponent limits.componentLength s

theorem accepted_of_components (h : components limits path = .ok names) :
    names = split path ∧ Accepted limits path := by
  unfold components at h
  split at h
  case isTrue ha =>
    cases h
    have ⟨_, _, _, _, hd, hs⟩ := ha
    exact ⟨rfl, hd, hs⟩
  case isFalse => cases h

theorem split_ne_nil (path : String) : split path ≠ [] := by
  simp [split, List.splitOn_ne_nil]

-- The names that lead to an entry, the last of them first.
def trail (path : String) : Location :=
  (split path).reverse

theorem trail_ne_nil (path : String) : trail path ≠ [] := by
  simp [trail, split_ne_nil]

theorem Accepted.allOrdinary_split (h : Accepted limits path) : AllOrdinary (split path) :=
  fun s hs => (h.safe s hs).isOrdinary

theorem Accepted.allOrdinary (h : Accepted limits path) : AllOrdinary (trail path) :=
  h.allOrdinary_split.reverse

theorem Accepted.no_nul (h : Accepted limits path) : ∀ s ∈ trail path, '\x00' ∉ s.toList :=
  fun s hs => (h.safe s (List.mem_reverse.mp hs)).no_nul

theorem Accepted.length_trail (h : Accepted limits path) :
    (trail path).length ≤ limits.pathDepth.toNat := by
  rw [trail, List.length_reverse]
  exact h.depth

theorem eq_foldl_of_resolve {root target : Path} (h : resolve limits root path = .ok target) :
    components limits path = .ok (split path) ∧
      target = (split path).foldl (fun p name => p.join ⟨name⟩) root := by
  unfold resolve at h
  cases hc : components limits path with
  | error e => simp [hc, bind, Except.bind] at h
  | ok names =>
    obtain ⟨rfl, _⟩ := accepted_of_components hc
    rw [hc] at h
    simp only [bind, Except.bind, pure, Except.pure] at h
    split at h <;> cases h
    exact ⟨rfl, rfl⟩

theorem accepted_of_resolve {root target : Path} (h : resolve limits root path = .ok target) :
    Accepted limits path :=
  (accepted_of_components (eq_foldl_of_resolve h).1).2

theorem eq_pathTo_of_resolve {root : List String} {target : Path} (hr : AllOrdinary root)
    (h : resolve limits (pathTo root) path = .ok target) :
    Accepted limits path ∧ target = pathTo (trail path ++ root) := by
  have ha := accepted_of_resolve h
  obtain ⟨_, rfl⟩ := eq_foldl_of_resolve h
  exact ⟨ha, foldl_join_pathTo hr ha.allOrdinary_split⟩

end EntryPath
end TarGuard
