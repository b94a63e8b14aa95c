import TarGuard.Proofs.Joining

namespace TarGuard.Path

open FileSystem

variable {p q : Path} {s : String} {names : List String} {top l cs : List Component} {c : Component}

def place (p : Path) : List Component :=
  p.components.foldl step []

def moves (p : Path) : List Component :=
  p.pieces.filterMap Component.ofPiece?

theorem isMove_of_mem_moves (h : c ∈ p.moves) : IsMove c := by
  obtain ⟨s, hs, hc⟩ := List.mem_filterMap.mp h
  exact isMove_of_ofPiece? (no_slash_of_mem_pieces hs) hc

section Place

theorem step_root (l : List Component) : step l .root = [.root] := by
  cases l with
  | nil => rfl
  | cons c l => cases c <;> rfl

theorem filterMap_divide (ps : List String) :
    (divide ps).2.filterMap Component.ofPiece? = ps.filterMap Component.ofPiece? := by
  cases ps with
  | nil => rfl
  | cons s rest =>
    have hvoid (h : IsVoid s) :
        (s :: rest).filterMap Component.ofPiece? = rest.filterMap Component.ofPiece? :=
      List.filterMap_cons_none (Component.ofPiece?_of_isVoid h)
    rw [divide]
    split
    case isTrue he =>
      rw [hvoid (isVoid_iff.mpr (.inl he))]
      split
      case isTrue hr => rw [hr]
      case isFalse => rfl
    case isFalse =>
      split
      case isTrue hh => rw [hvoid (isVoid_iff.mpr (.inr hh))]
      case isFalse => rfl

theorem components_eq_moves (p : Path) : p.components = p.split.1.components ++ p.moves := by
  rw [components, split_eq_divide, filterMap_divide, moves]

theorem foldl_step_components (p : Path) (l : List Component) :
    p.components.foldl step l = p.moves.foldl step (if p.IsAbsolute then [.root] else l) := by
  rw [components_eq_moves, List.foldl_append]
  congr 1
  cases hs : p.split.1 with
  | root =>
    rw [if_pos (isAbsolute_iff_start.mpr hs)]
    exact step_root l
  | here | none =>
    rw [if_neg (by simp [isAbsolute_iff_start, hs])]
    rfl

theorem place_eq (p : Path) : p.place = p.moves.foldl step (if p.IsAbsolute then [.root] else []) :=
  p.foldl_step_components []

theorem getLast?_step (hc : IsMove c) :
    (step l c).getLast? = some .root ↔ l.getLast? = some .root := by
  rcases hc with rfl | ⟨s, _, rfl⟩
  case inl =>
    cases l with
    | nil => simp [step]
    | cons d l =>
      cases l with
      | nil => cases d <;> simp [step]
      | cons e l => cases d <;> simp [step]
  case inr =>
    rw [step_name]
    cases l <;> simp

theorem getLast?_foldl_step (hcs : ∀ c ∈ cs, IsMove c) :
    (cs.foldl step l).getLast? = some .root ↔ l.getLast? = some .root := by
  induction cs generalizing l with
  | nil => rfl
  | cons c cs ih =>
    have ⟨hc, hcs⟩ := List.forall_mem_cons.mp hcs
    exact (ih hcs).trans (getLast?_step hc)

theorem getLast?_place (p : Path) : p.place.getLast? = some .root ↔ p.IsAbsolute := by
  rw [place_eq, getLast?_foldl_step fun _ => isMove_of_mem_moves]
  split
  case isTrue ha => simp [ha]
  case isFalse ha => simp [ha]

end Place

section Join

variable (h : ¬ q.IsAbsolute)

include h

theorem isAbsolute_join_iff : (p.join q).IsAbsolute ↔ p.IsAbsolute := by
  have happend (t u : String) (hne : t ≠ "") : IsAbsolute ⟨t ++ u⟩ ↔ IsAbsolute ⟨t⟩ := by
    have hne : t.toList ≠ [] := by simpa using hne
    rw [IsAbsolute, IsAbsolute, String.toList_append, List.head?_append_of_ne_nil _ hne]
  rcases join_relative_cases (p := p) h with ⟨he, hj⟩ | ⟨t, ht, hj⟩ | ⟨hne, hj⟩
  · have hp : ¬ p.IsAbsolute := by simp [IsAbsolute, he]
    rw [hj]
    exact iff_of_false h hp
  · rw [hj, happend _ _ (by simp), ← ht]
  · rw [hj, String.append_assoc, happend _ _ hne]

theorem moves_join : (p.join q).moves = p.moves ++ q.moves := by
  rcases pieces_join_relative (p := p) h with ⟨he, hj⟩ | ⟨_, front, vs, _, hvs, hp, hj⟩
  case inl =>
    have hp : p.moves = [] := by rw [show p = empty from Path.ext he]; rfl
    rw [hj, hp, List.nil_append]
  case inr =>
    have hvoid := filterMap_of_void fun v hv => isVoid_iff.mpr (.inl (hvs v hv))
    rw [moves, moves, moves, hj, hp, List.filterMap_append, List.filterMap_append, hvoid,
      List.append_nil]

theorem place_join : (p.join q).place = q.components.foldl step p.place := by
  rw [foldl_step_components, if_neg h, place_eq, moves_join h, List.foldl_append, place_eq]
  simp only [isAbsolute_join_iff h]

end Join

section NormalForm

theorem foldl_step_replicate_up (m n : Nat) :
    (List.replicate n Component.up).foldl step (List.replicate m .up) =
      List.replicate (m + n) .up := by
  have hstep (m : Nat) : step (List.replicate m .up) .up = List.replicate (m + 1) .up := by
    cases m <;> rfl
  induction n generalizing m with
  | zero => rfl
  | succ n ih =>
    rw [List.replicate_succ, List.foldl_cons, hstep, ih, Nat.add_right_comm, Nat.add_assoc]

theorem IsTop.foldl_step (h : IsTop top) : top.foldl Path.step [] = top := by
  rcases h with rfl | ⟨n, rfl⟩
  · rfl
  · have hups := foldl_step_replicate_up 0 n
    rwa [Nat.zero_add] at hups

theorem foldl_step_spelled (h : IsTop top) (names : List String) :
    (top ++ names.map Component.name).foldl step [] =
      (top ++ names.map Component.name).reverse := by
  rw [List.foldl_append, h.foldl_step, foldl_step_names, List.reverse_append, h.reverse_eq]

theorem normalComponents_eq_reverse (p : Path) : p.normalComponents = p.place.reverse := rfl

theorem foldl_step_normalComponents (p : Path) : p.normalComponents.foldl step [] = p.place := by
  obtain ⟨top, names, ht, _, hp⟩ := p.exists_normalComponents
  have hplace := foldl_step_spelled ht names
  rw [← hp] at hplace
  rw [hplace, normalComponents_eq_reverse, List.reverse_reverse]

theorem place_normalize (p : Path) : p.normalize.place = p.place := by
  rw [place, components_normalize, foldl_step_normalComponents]

-- The normal form says where a path leads, and nothing else.
theorem normalize_eq_iff : p.normalize = q.normalize ↔ p.place = q.place := by
  constructor
  case mp =>
    intro h
    rw [← place_normalize p, h, place_normalize]
  case mpr =>
    intro h
    exact congrArg (fun l => ofComponents l.reverse) h

theorem isAbsolute_normalize (p : Path) : p.normalize.IsAbsolute ↔ p.IsAbsolute := by
  rw [← getLast?_place, ← getLast?_place, place_normalize]

theorem normalComponents_of_isAbsolute (h : p.IsAbsolute) :
    ∃ names, AllOrdinary names ∧ p.normalComponents = .root :: names.map .name := by
  obtain ⟨top, names, ht, ho, hp⟩ := p.exists_normalComponents
  rcases ht with rfl | ⟨n, rfl⟩
  case inl => exact ⟨names, ho, hp⟩
  case inr =>
    have ha := isAbsolute_iff.mp (p.isAbsolute_normalize.mpr h)
    rw [components_normalize, hp] at ha
    cases n <;> cases names <;> simp [List.replicate_succ] at ha

theorem normalComponents_of_not_isAbsolute (h : ¬ p.IsAbsolute) :
    ∃ n names, AllOrdinary names ∧
      p.normalComponents = List.replicate n .up ++ names.map .name := by
  obtain ⟨top, names, ht, ho, hp⟩ := p.exists_normalComponents
  rcases ht with rfl | ⟨n, rfl⟩
  case inl =>
    rw [← isAbsolute_normalize, isAbsolute_iff, components_normalize, hp] at h
    exact absurd rfl h
  case inr => exact ⟨n, names, ho, hp⟩

-- A path in normal form. Its text is that of its components, with single slashes between them.
structure IsNormal (p : Path) : Prop where
  spelled  : ofComponents p.components = p
  no_here  : .here ∉ p.components
  no_up    : p.IsAbsolute → .up ∉ p.components
  up_first : ¬ p.IsAbsolute → ∃ n names, AllOrdinary names ∧
    p.components = List.replicate n .up ++ names.map .name

theorem isNormal_normalize (p : Path) : p.normalize.IsNormal where
  spelled := by rw [components_normalize, normalize]
  no_here := by
    obtain ⟨top, names, ht, _, hp⟩ := p.exists_normalComponents
    rw [components_normalize, hp]
    rcases ht with rfl | ⟨n, rfl⟩ <;> simp
  no_up h := by
    obtain ⟨names, _, hp⟩ := normalComponents_of_isAbsolute (p.isAbsolute_normalize.mp h)
    rw [components_normalize, hp]
    simp
  up_first h := by
    rw [components_normalize]
    exact normalComponents_of_not_isAbsolute (mt p.isAbsolute_normalize.mpr h)

theorem IsNormal.exists_top (h : p.IsNormal) :
    ∃ top, ∃ names : List String, IsTop top ∧ p.components = top ++ names.map .name := by
  by_cases ha : p.IsAbsolute
  case pos =>
    obtain ⟨cs, hp, hm⟩ := components_of_isAbsolute ha
    have hup := h.no_up ha
    rw [hp] at hup
    obtain ⟨names, _, rfl⟩ := exists_names_of_no_up hm (mt (List.mem_cons_of_mem _) hup)
    exact ⟨[.root], names, .inl rfl, hp⟩
  case neg =>
    obtain ⟨n, names, _, hp⟩ := h.up_first ha
    exact ⟨_, names, .inr ⟨n, rfl⟩, hp⟩

theorem normalize_eq_self_iff : p.normalize = p ↔ p.IsNormal := by
  constructor
  case mp => exact fun h => h ▸ p.isNormal_normalize
  case mpr =>
    intro h
    obtain ⟨top, names, ht, hp⟩ := h.exists_top
    have hplace := foldl_step_spelled ht names
    rw [← hp] at hplace
    rw [normalize, normalComponents, hplace, List.reverse_reverse, h.spelled]

end NormalForm

section Text

def follow (p : Path) : Component → Path
  | .here => p
  | .up =>
    if p.fileName?.isSome then p.parent?.getD p
    else if p.IsAbsolute then p
    else p.join ⟨Component.up.text⟩
  | c => p.join ⟨c.text⟩

theorem ofComponents_concat (cs : List Component) (c : Component) :
    ofComponents (cs ++ [c]) = (ofComponents cs).join ⟨c.text⟩ :=
  ofComponents_append cs [c]

theorem IsPlace.components_eq (h : IsPlace l) :
    (ofComponents l.reverse).components = l.reverse := by
  obtain ⟨names, top, ho, ht, rfl⟩ := h
  rw [List.reverse_append, ht.reverse_eq, ← List.map_reverse, ofComponents_append,
    components_foldl_join (isMove_names ho.reverse), components_of_isTop ht]

theorem IsPlace.eq_nil_or_root_or_move (h : IsPlace l) :
    l = [] ∨ l = [.root] ∨ ∃ c rest, IsMove c ∧ l = c :: rest := by
  obtain ⟨names, top, ho, ht, rfl⟩ := h
  cases names with
  | cons s names => exact .inr (.inr ⟨.name s, _, .inr ⟨s, ho.head, rfl⟩, rfl⟩)
  | nil =>
    rcases ht with rfl | ⟨n, rfl⟩
    · exact .inr (.inl rfl)
    · cases n with
      | zero => exact .inl rfl
      | succ n => exact .inr (.inr ⟨.up, _, .inl rfl, rfl⟩)

theorem IsPlace.parent?_join (h : IsPlace l) (hc : IsMove c) :
    ((ofComponents l.reverse).join ⟨c.text⟩).parent? = some (ofComponents l.reverse) := by
  rw [parent?, parents_join hc]
  rcases h.eq_nil_or_root_or_move with rfl | rfl | ⟨d, rest, hd, rfl⟩
  · decide
  · decide
  · rw [List.reverse_cons, ofComponents_concat, prefixes_join hd, List.head?_cons]

theorem IsPlace.follow_up_name (h : IsPlace l) (hs : IsOrdinary s) :
    follow (ofComponents (Component.name s :: l).reverse) .up = ofComponents l.reverse := by
  have hc : IsMove (.name s) := .inr ⟨s, hs, rfl⟩
  have hplace : IsPlace (.name s :: l) := step_name l s ▸ h.step hc
  have hname : (ofComponents (Component.name s :: l).reverse).fileName? = some s := by
    rw [fileName?, hplace.components_eq, List.reverse_cons, List.getLast?_concat]
  have hparent := h.parent?_join hc
  rw [← ofComponents_concat, ← List.reverse_cons] at hparent
  simp only [follow, hname, hparent, Option.isSome_some, if_true, Option.getD_some]

theorem IsTop.follow_up (h : IsTop top) :
    follow (ofComponents top) .up = ofComponents (Path.step top .up).reverse := by
  have hcomponents := components_of_isTop h
  rcases h with rfl | ⟨n, rfl⟩
  case inl => decide
  case inr =>
    have hname : (ofComponents (List.replicate n Component.up)).fileName? = none := by
      rw [fileName?, hcomponents]
      cases n with
      | zero => rfl
      | succ n => rw [List.replicate_succ', List.getLast?_concat]
    have habsolute : ¬ (ofComponents (List.replicate n Component.up)).IsAbsolute := by
      rw [isAbsolute_iff, hcomponents]
      cases n <;> simp [List.replicate_succ]
    have hups : Path.step (List.replicate n .up) .up = List.replicate (n + 1) .up :=
      foldl_step_replicate_up n 1
    rw [hups, List.reverse_replicate, List.replicate_succ', ofComponents_concat]
    simp only [follow, hname, if_neg habsolute, Option.isSome_none, Bool.false_eq_true, if_false]

theorem IsPlace.follow (h : IsPlace l) (hc : IsMove c) :
    Path.follow (ofComponents l.reverse) c = ofComponents (Path.step l c).reverse := by
  rcases hc with rfl | ⟨s, _, rfl⟩
  case inl =>
    obtain ⟨names, top, ho, ht, rfl⟩ := h
    cases names with
    | nil =>
      rw [List.map_nil, List.nil_append, ht.reverse_eq]
      exact ht.follow_up
    | cons s names =>
      have hrest : IsPlace (names.map .name ++ top) := ⟨names, top, ho.tail, ht, rfl⟩
      exact hrest.follow_up_name ho.head
  case inr =>
    rw [step_name, List.reverse_cons, ofComponents_concat]
    rfl

theorem IsPlace.foldl_follow (h : IsPlace l) (hcs : ∀ c ∈ cs, IsMove c) :
    cs.foldl Path.follow (ofComponents l.reverse) =
      ofComponents (cs.foldl Path.step l).reverse := by
  induction cs generalizing l with
  | nil => rfl
  | cons c cs ih =>
    have ⟨hc, hcs⟩ := List.forall_mem_cons.mp hcs
    rw [List.foldl_cons, h.follow hc, ih (h.step hc) hcs, List.foldl_cons]

theorem foldl_follow (p : Path) : p.components.foldl follow empty = p.normalize := by
  obtain ⟨cs, hp, hm⟩ := p.exists_moves
  rw [normalize, normalComponents, hp, List.foldl_append, List.foldl_append]
  cases p.split.1 with
  | root =>
    have hroot : IsPlace [.root] := ⟨[], [.root], .nil, .inl rfl, rfl⟩
    exact hroot.foldl_follow hm
  | here | none =>
    have hnone : IsPlace [] := ⟨[], [], .nil, .inr ⟨0, rfl⟩, rfl⟩
    exact hnone.foldl_follow hm

end Text

theorem normalize_respects_join (p : Path) :
    p.components.foldl follow empty = p.normalize ∧ p.normalize.IsNormal ∧
      (p.normalize.IsAbsolute ↔ p.IsAbsolute) ∧ p.normalize.normalize = p.normalize ∧
      ∀ q : Path, ¬ q.IsAbsolute → (p.join q).normalize = (p.normalize.join q).normalize := by
  refine ⟨p.foldl_follow, p.isNormal_normalize, p.isAbsolute_normalize, ?_, fun q hq => ?_⟩
  · exact normalize_eq_self_iff.mpr p.isNormal_normalize
  · rw [normalize_eq_iff, place_join hq, place_join hq, place_normalize]

theorem normalize_respects_join_up :
    ¬ Path.IsAbsolute ⟨"./../../c//"⟩ ∧
      (join ⟨"a/..//../b/."⟩ ⟨"./../../c//"⟩).normalize = ⟨"../../c"⟩ ∧
      (join (normalize ⟨"a/..//../b/."⟩) ⟨"./../../c//"⟩).normalize = ⟨"../../c"⟩ := by
  have hq : ¬ Path.IsAbsolute ⟨"./../../c//"⟩ := by decide
  have hn : (join ⟨"a/..//../b/."⟩ ⟨"./../../c//"⟩).normalize = ⟨"../../c"⟩ := by decide +kernel
  obtain ⟨_, _, _, _, hjoin⟩ := normalize_respects_join ⟨"a/..//../b/."⟩
  exact ⟨hq, hn, hjoin _ hq ▸ hn⟩

end TarGuard.Path
