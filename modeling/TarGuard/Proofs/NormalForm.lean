import TarGuard.Proofs.Pieces

namespace TarGuard.Path

open FileSystem

variable {p : Path} {names : List String} {top : List Component} {c : Component} {s : String}
  {cs : List Component}

theorem step_name (place : List Component) (s : String) :
    step place (.name s) = .name s :: place := by
  cases place with
  | nil => rfl
  | cons c place => cases c <;> rfl

theorem foldl_step_names (names : List String) (place : List Component) :
    (names.map Component.name).foldl step place = (names.map Component.name).reverse ++ place := by
  induction names generalizing place with
  | nil => rfl
  | cons s names ih =>
    rw [List.map_cons, List.foldl_cons, step_name, ih]
    simp

def IsTop (top : List Component) : Prop :=
  top = [.root] ∨ ∃ n, top = List.replicate n .up

theorem IsTop.reverse_eq (h : IsTop top) : top.reverse = top := by
  rcases h with rfl | ⟨n, rfl⟩
  · rfl
  · exact List.reverse_replicate

-- Where a path leads when it is followed without a look at any file system, innermost first.
def IsPlace (place : List Component) : Prop :=
  ∃ names top, AllOrdinary names ∧ IsTop top ∧ place = names.map .name ++ top

theorem IsPlace.step {place : List Component} (h : IsPlace place) (hc : IsMove c) :
    IsPlace (step place c) := by
  obtain ⟨names, top, ho, ht, rfl⟩ := h
  rcases hc with rfl | ⟨s, hs, rfl⟩
  case inr => exact ⟨s :: names, top, ho.cons hs, ht, step_name _ s⟩
  case inl =>
    cases names with
    | cons s names => exact ⟨names, top, ho.tail, ht, rfl⟩
    | nil =>
      rcases ht with rfl | ⟨n, rfl⟩
      · exact ⟨[], [.root], .nil, .inl rfl, rfl⟩
      · refine ⟨[], _, .nil, .inr ⟨n + 1, rfl⟩, ?_⟩
        cases n <;> rfl

theorem IsPlace.foldl_step {place : List Component} (h : IsPlace place) (hcs : ∀ c ∈ cs, IsMove c) :
    IsPlace (cs.foldl Path.step place) := by
  induction cs generalizing place with
  | nil => exact h
  | cons c cs ih =>
    have ⟨hc, hcs⟩ := List.forall_mem_cons.mp hcs
    exact ih (h.step hc) hcs

theorem isPlace_foldl_step (p : Path) : IsPlace (p.components.foldl step []) := by
  have hnone : IsPlace [] := ⟨[], [], .nil, .inr ⟨0, rfl⟩, rfl⟩
  have hroot : IsPlace [.root] := ⟨[], [.root], .nil, .inl rfl, rfl⟩
  obtain ⟨cs, hc, hm⟩ := p.exists_moves
  rw [hc, List.foldl_append]
  refine IsPlace.foldl_step ?_ hm
  cases p.split.1 with
  | root => exact hroot
  | here => exact hnone
  | none => exact hnone

theorem exists_normalComponents (p : Path) :
    ∃ top names, IsTop top ∧ AllOrdinary names ∧ p.normalComponents = top ++ names.map .name := by
  obtain ⟨names, top, ho, ht, hp⟩ := p.isPlace_foldl_step
  refine ⟨top, names.reverse, ht, ho.reverse, ?_⟩
  rw [normalComponents, hp, List.reverse_append, ht.reverse_eq, List.map_reverse]

theorem ofComponents_append (cs ds : List Component) :
    ofComponents (cs ++ ds) = ds.foldl (fun p c => p.join ⟨c.text⟩) (ofComponents cs) := by
  rw [ofComponents, List.foldl_append, ofComponents]

theorem components_ofComponents (h : ∀ c ∈ cs, IsMove c) : (ofComponents cs).components = cs := by
  rw [ofComponents, components_foldl_join h]
  rfl

theorem components_of_isTop (ht : IsTop top) : (ofComponents top).components = top := by
  rcases ht with rfl | ⟨n, rfl⟩
  · decide
  · exact components_ofComponents fun c hc => .inl (List.eq_of_mem_replicate hc)

theorem components_normalize (p : Path) : p.normalize.components = p.normalComponents := by
  obtain ⟨top, names, ht, ho, hp⟩ := p.exists_normalComponents
  rw [normalize, hp, ofComponents_append, components_foldl_join (isMove_names ho),
    components_of_isTop ht]

theorem dropCommon_append {α : Type} [DecidableEq α] (as bs : List α) :
    dropCommon as (as ++ bs) = ([], bs) := by
  induction as with
  | nil => cases bs <;> rfl
  | cons a as ih => rw [List.cons_append, dropCommon, if_pos rfl, ih]

section Append

variable {base : Path} (h : p.normalComponents = base.normalComponents ++ names.map .name)

include h

theorem isAbsolute_normalize_of_append : p.normalize.IsAbsolute ↔ base.normalize.IsAbsolute := by
  rw [isAbsolute_iff, isAbsolute_iff, components_normalize, components_normalize, h,
    List.head?_append]
  cases base.normalComponents.head? with
  | none => simp
  | some c => simp

theorem relativeTo?_of_append : p.relativeTo? base = some (ofComponents (names.map .name)) := by
  rw [relativeTo?, if_pos (isAbsolute_normalize_of_append h).symm, components_normalize,
    components_normalize, h, dropCommon_append]
  rfl

theorem isBelow_of_append (ho : AllOrdinary names) (hne : names ≠ []) : p.IsBelow base := by
  have hc := components_ofComponents (isMove_names ho)
  obtain ⟨s, more, rfl⟩ := List.exists_cons_of_ne_nil hne
  rw [List.map_cons] at hc
  simp only [IsBelow, relativeTo?_of_append h]
  refine ⟨fun he => ?_, fun ha => ?_, by simp [hc]⟩
  · rw [List.map_cons] at he
    rw [show ofComponents _ = empty from Path.ext he] at hc
    cases hc
  · rw [isAbsolute_iff, List.map_cons, hc] at ha
    cases ha

end Append

section Joined

variable (ho : AllOrdinary names)

include ho

theorem normalComponents_joined (p : Path) :
    (names.foldl (fun q s => q.join ⟨s⟩) p).normalComponents =
      p.normalComponents ++ names.map .name := by
  rw [normalComponents, components_joined ho, List.foldl_append, foldl_step_names,
    List.reverse_append, List.reverse_reverse, normalComponents]

theorem normalize_joined (p : Path) :
    (names.foldl (fun q s => q.join ⟨s⟩) p).normalize =
      names.foldl (fun q s => q.join ⟨s⟩) p.normalize := by
  rw [normalize, normalComponents_joined ho, ofComponents_append, List.foldl_map, normalize]
  rfl

theorem isBelow_joined (hne : names ≠ []) (p : Path) :
    (names.foldl (fun q s => q.join ⟨s⟩) p).IsBelow p :=
  isBelow_of_append (normalComponents_joined ho p) ho hne

end Joined
end TarGuard.Path
