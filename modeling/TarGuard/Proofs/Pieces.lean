import TarGuard.Proofs.Normal

namespace TarGuard

open FileSystem

structure IsPiece (s : String) : Prop where
  ne_empty : s ≠ ""
  no_slash : '/' ∉ s.toList

theorem IsOrdinary.isPiece {s : String} (h : IsOrdinary s) : IsPiece s :=
  ⟨h.ne_empty, h.no_slash⟩

theorem IsPiece.not_isAbsolute {s : String} (h : IsPiece s) : ¬ Path.IsAbsolute ⟨s⟩ :=
  fun ha => h.no_slash (List.mem_of_mem_head? ha)

theorem Component.text_of_ofPiece? {s : String} {c : Component} (h : ofPiece? s = some c) :
    c.text = s := by
  unfold ofPiece? at h
  split at h <;> cases h <;> rfl

theorem Path.isVoid_iff {s : String} : IsVoid s ↔ s = "" ∨ s = "." := by
  simp [IsVoid]

theorem Component.ofPiece?_of_isVoid {s : String} (h : Path.IsVoid s) : ofPiece? s = none := by
  rcases Path.isVoid_iff.mp h with rfl | rfl <;> rfl

theorem Component.isVoid_of_ofPiece? {s : String} (h : ofPiece? s = none) : Path.IsVoid s := by
  unfold ofPiece? at h
  split at h <;> first | rfl | cases h

namespace Path

variable {p q : Path} {start : Start} {ps vs names : List String} {s : String} {c : Component}
  {cs : List Component}

theorem IsMove.not_isVoid (h : IsMove c) : IsVoid c.text = false := by
  rcases h with rfl | ⟨s, hs, rfl⟩
  · rfl
  · exact hs.not_isVoid

theorem IsMove.ofPiece? (h : IsMove c) : Component.ofPiece? c.text = some c := by
  rcases h with rfl | ⟨s, hs, rfl⟩
  · rfl
  · exact hs.ofPiece?

theorem IsMove.isPiece (h : IsMove c) : IsPiece c.text := by
  rcases h with rfl | ⟨s, hs, rfl⟩
  · exact ⟨by decide, by decide⟩
  · exact hs.isPiece

section Pieces

theorem no_slash_of_mem_pieces (h : s ∈ p.pieces) : '/' ∉ s.toList := by
  obtain ⟨l, hl, rfl⟩ := List.mem_map.mp h
  simpa using not_mem_of_mem_splitOn hl

theorem pieces_ne_nil (p : Path) : p.pieces ≠ [] := by
  simp [pieces, List.splitOn_ne_nil]

theorem toList_text (p : Path) :
    p.text.toList = ['/'].intercalate (p.pieces.map String.toList) := by
  have hp : p.pieces.map String.toList = p.text.toList.splitOn '/' := by
    simp [pieces, Function.comp_def]
  rw [hp, List.intercalate_splitOn]

theorem text_eq (p : Path) : p.text = "/".intercalate p.pieces := by
  rw [← String.toList_inj, toList_text]
  simp

theorem pieces_intercalate (h : ∀ s ∈ ps, '/' ∉ s.toList) (hne : ps ≠ []) :
    pieces ⟨"/".intercalate ps⟩ = ps := by
  have hs : ∀ l ∈ ps.map String.toList, '/' ∉ l := by simpa using h
  have ht : ("/".intercalate ps).toList = ['/'].intercalate (ps.map String.toList) := by simp
  rw [pieces, ht, List.splitOn_intercalate '/' hs (by simpa using hne)]
  simp [Function.comp_def]

theorem pieces_append (t u : String) : pieces ⟨t ++ "/" ++ u⟩ = pieces ⟨t⟩ ++ pieces ⟨u⟩ := by
  have hs : (t ++ "/" ++ u).toList = t.toList ++ '/' :: u.toList := by simp
  rw [pieces, hs, List.splitOn_append_cons_self, List.map_append]
  rfl

theorem pieces_piece (h : IsPiece s) : pieces ⟨s⟩ = [s] := by
  rw [pieces, List.splitOn_eq_singleton h.no_slash]
  simp

theorem isAbsolute_iff_pieces : p.IsAbsolute ↔ ∃ s rest, p.pieces = "" :: s :: rest := by
  have ht := p.toList_text
  constructor
  case mp =>
    intro ha
    rw [IsAbsolute, ht] at ha
    cases hp : p.pieces with
    | nil => exact absurd hp p.pieces_ne_nil
    | cons s more =>
      have hs : '/' ∉ s.toList := no_slash_of_mem_pieces (hp ▸ List.mem_cons_self)
      cases more with
      | nil =>
        rw [hp, List.map_singleton, List.intercalate_singleton] at ha
        exact absurd (List.mem_of_mem_head? ha) hs
      | cons t rest =>
        rw [hp, List.map_cons, List.map_cons, List.intercalate_cons_cons] at ha
        by_cases he : s = ""
        case pos => exact ⟨t, rest, by rw [he]⟩
        case neg =>
          have hne : s.toList ≠ [] := by simpa using he
          rw [List.append_assoc, List.head?_append_of_ne_nil _ hne] at ha
          exact absurd (List.mem_of_mem_head? ha) hs
  case mpr =>
    rintro ⟨s, rest, hp⟩
    rw [hp, List.map_cons, List.map_cons, List.intercalate_cons_cons] at ht
    rw [IsAbsolute, ht]
    rfl

end Pieces

section Split

def divide : List String → Start × List String
  | [] => (.none, [])
  | s :: rest =>
    if s = "" then if rest = [] then (.none, []) else (.root, rest)
    else if s = "." then (.here, rest)
    else (.none, s :: rest)

theorem split_eq_divide (p : Path) : p.split = divide p.pieces := by
  unfold split
  split
  case h_1 rest hp =>
    have ha : p.IsAbsolute ↔ rest ≠ [] := by
      rw [isAbsolute_iff_pieces, hp, List.ne_nil_iff_exists_cons]
      simp
    rw [hp, divide, if_pos rfl]
    by_cases hr : rest = []
    case pos => rw [if_neg (fun h => ha.mp h hr), if_pos hr, hr]
    case neg => rw [if_pos (ha.mpr hr), if_neg hr]
  case h_2 hp => rw [hp]; rfl
  case h_3 he hh =>
    cases hp : p.pieces with
    | nil => rfl
    | cons s rest =>
      have hne : s ≠ "" := fun h => he rest (h ▸ hp)
      have hnh : s ≠ "." := fun h => hh rest (h ▸ hp)
      rw [divide, if_neg hne, if_neg hnh]

structure Follows (start : Start) (ps : List String) : Prop where
  no_slash : ∀ s ∈ ps, '/' ∉ s.toList
  first    : start = .none → ∀ s ∈ ps.head?, ¬ IsVoid s

theorem follows_divide (h : ∀ s ∈ ps, '/' ∉ s.toList) : Follows (divide ps).1 (divide ps).2 := by
  cases ps with
  | nil => exact ⟨h, fun _ => by simp [divide]⟩
  | cons s rest =>
    have hrest : ∀ t ∈ rest, '/' ∉ t.toList := fun t ht => h t (List.mem_cons_of_mem s ht)
    rw [divide]
    split
    case isTrue =>
      split
      · exact ⟨by simp, by simp⟩
      · exact ⟨hrest, nofun⟩
    case isFalse he =>
      split
      case isTrue => exact ⟨hrest, nofun⟩
      case isFalse hh => exact ⟨h, fun _ t ht => by simp_all [isVoid_iff]⟩

theorem follows_split (p : Path) : Follows p.split.1 p.split.2 :=
  p.split_eq_divide ▸ follows_divide fun _ => no_slash_of_mem_pieces

theorem Follows.of_prefix (h : Follows start ps) (hq : vs <+: ps) : Follows start vs where
  no_slash s hs := h.no_slash s (hq.subset hs)
  first hn s hs := by
    obtain ⟨rest, rfl⟩ := hq
    refine h.first hn s ?_
    rw [Option.mem_def] at hs ⊢
    rw [List.head?_append, hs, Option.some_or]

theorem assemble_divide (hne : ps ≠ []) :
    assemble (divide ps).1 (divide ps).2 = ⟨"/".intercalate ps⟩ := by
  cases ps with
  | nil => exact absurd rfl hne
  | cons s rest =>
    rw [divide]
    split
    case isTrue he =>
      subst he
      split
      case isTrue hr =>
        subst hr
        rfl
      case isFalse hr =>
        obtain ⟨t, more, rfl⟩ := List.exists_cons_of_ne_nil hr
        simp [assemble]
    case isFalse =>
      split
      case isTrue hh => rw [hh]; rfl
      case isFalse => rfl

theorem assemble_split (p : Path) : assemble p.split.1 p.split.2 = p := by
  rw [split_eq_divide, assemble_divide p.pieces_ne_nil, ← text_eq]

theorem Follows.split_assemble (h : Follows start ps) (hne : start = .root → ps ≠ []) :
    (assemble start ps).split = (start, ps) := by
  cases start with
  | root => exact Path.split_assemble h.no_slash (hne rfl)
  | here =>
    have hs : ∀ s ∈ "." :: ps, '/' ∉ s.toList :=
      List.forall_mem_cons.mpr ⟨by decide, h.no_slash⟩
    rw [assemble, split_eq_divide, pieces_intercalate hs (List.cons_ne_nil _ _)]
    rfl
  | none =>
    cases ps with
    | nil => decide
    | cons s rest =>
      have hs : ¬ IsVoid s := h.first rfl s rfl
      rw [isVoid_iff, not_or] at hs
      rw [assemble, split_eq_divide, pieces_intercalate h.no_slash (List.cons_ne_nil _ _), divide,
        if_neg hs.1, if_neg hs.2]

end Split

section Components

theorem filterMap_of_void (h : ∀ s ∈ vs, IsVoid s) : vs.filterMap Component.ofPiece? = [] :=
  List.filterMap_eq_nil_iff.mpr fun s hs => Component.ofPiece?_of_isVoid (h s hs)

theorem isMove_of_follows (h : Follows start ps) :
    ∀ c ∈ ps.filterMap Component.ofPiece?, IsMove c := by
  intro c hc
  obtain ⟨s, hs, hc⟩ := List.mem_filterMap.mp hc
  exact isMove_of_ofPiece? (h.no_slash s hs) hc

theorem exists_moves (p : Path) :
    ∃ cs, p.components = p.split.1.components ++ cs ∧ ∀ c ∈ cs, IsMove c :=
  ⟨_, rfl, isMove_of_follows p.follows_split⟩

theorem IsMove.ne_root (h : IsMove c) : c ≠ .root := by
  rcases h with rfl | ⟨s, _, rfl⟩ <;> exact nofun

theorem isAbsolute_iff_start : p.IsAbsolute ↔ p.split.1 = .root := by
  constructor
  case mp =>
    intro ha
    obtain ⟨rest, hs, _⟩ := split_of_isAbsolute ha
    rw [hs]
  case mpr =>
    intro hs
    have ht := p.assemble_split
    rw [hs] at ht
    exact ht ▸ isAbsolute_assemble _

theorem isAbsolute_iff : p.IsAbsolute ↔ p.components.head? = some .root := by
  obtain ⟨cs, hc, hm⟩ := p.exists_moves
  have hhead : cs.head? ≠ some .root := fun h => (hm _ (List.mem_of_mem_head? h)).ne_root rfl
  rw [isAbsolute_iff_start, hc]
  cases p.split.1 with
  | root => simp [Start.components]
  | here => simp [Start.components]
  | none => simpa [Start.components] using hhead

end Components

section Join

theorem join_relative_cases (h : ¬ q.IsAbsolute) :
    p.text = "" ∧ p.join q = q ∨
    (∃ t, p.text = t ++ "/" ∧ p.join q = ⟨t ++ "/" ++ q.text⟩) ∨
    p.text ≠ "" ∧ p.join q = ⟨p.text ++ "/" ++ q.text⟩ := by
  rw [join, if_neg h]
  by_cases he : p.text = ""
  case pos => exact .inl ⟨he, by rw [if_pos (.inl he), he, String.empty_append]⟩
  case neg =>
    by_cases hl : p.text.toList.getLast? = some '/'
    case neg => exact .inr (.inr ⟨he, by rw [if_neg (not_or_intro he hl)]⟩)
    case pos =>
      obtain ⟨cs, hcs⟩ := List.getLast?_eq_some_iff.mp hl
      have ht : p.text = String.ofList cs ++ "/" := by
        rw [← String.toList_inj, hcs]
        simp
      exact .inr (.inl ⟨String.ofList cs, ht, by rw [if_pos (.inr hl), ← ht]⟩)

theorem join_cases (h : IsPiece s) :
    p.text = "" ∧ p.join ⟨s⟩ = ⟨s⟩ ∨
    (∃ t, p.text = t ++ "/" ∧ p.join ⟨s⟩ = ⟨t ++ "/" ++ s⟩) ∨
    p.text ≠ "" ∧ p.join ⟨s⟩ = ⟨p.text ++ "/" ++ s⟩ :=
  join_relative_cases h.not_isAbsolute

theorem pieces_join_relative (h : ¬ q.IsAbsolute) :
    p.text = "" ∧ p.join q = q ∨
    p.text ≠ "" ∧ ∃ front vs, front ≠ [] ∧ (∀ v ∈ vs, v = "") ∧ p.pieces = front ++ vs ∧
      (p.join q).pieces = front ++ q.pieces := by
  rcases join_relative_cases (p := p) h with hempty | ⟨t, ht, hj⟩ | ⟨hne, hj⟩
  · exact .inl hempty
  · have hne : p.text ≠ "" := by simp [ht]
    refine .inr ⟨hne, pieces ⟨t⟩, [""], pieces_ne_nil _, by simp, ?_, ?_⟩
    · have hp := pieces_append t ""
      rw [String.append_empty, ← ht] at hp
      exact hp
    · rw [hj, pieces_append]
  · refine .inr ⟨hne, p.pieces, [], p.pieces_ne_nil, by simp, by simp, ?_⟩
    rw [hj, pieces_append]

theorem pieces_join (h : IsPiece s) :
    p.text = "" ∧ (p.join ⟨s⟩).pieces = [s] ∨
    p.text ≠ "" ∧ ∃ front vs, front ≠ [] ∧ (∀ v ∈ vs, v = "") ∧ p.pieces = front ++ vs ∧
      (p.join ⟨s⟩).pieces = front ++ [s] := by
  have hj := pieces_join_relative (p := p) h.not_isAbsolute
  rw [pieces_piece h] at hj
  refine hj.imp_left fun ⟨he, hj⟩ => ⟨he, ?_⟩
  rw [hj, pieces_piece h]

theorem split_join (h : IsPiece s) (hv : ¬ IsVoid s) :
    ∃ start ps vs, (∀ v ∈ vs, IsVoid v) ∧ p.split = (start, ps ++ vs) ∧
      (p.join ⟨s⟩).split = (start, ps ++ [s]) := by
  have hs := isVoid_iff.not.mp hv
  rw [not_or] at hs
  rw [split_eq_divide, split_eq_divide]
  rcases pieces_join (p := p) h with ⟨he, hj⟩ | ⟨he, front, vs, hne, hvs, hp, hj⟩
  case inl =>
    have hp : p.pieces = [""] := by rw [show p = empty from Path.ext he]; rfl
    refine ⟨.none, [], [], by simp, by rw [hp]; rfl, ?_⟩
    rw [hj, divide, if_neg hs.1, if_neg hs.2, List.nil_append]
  case inr =>
    have hvoid : ∀ v ∈ vs, IsVoid v := fun v hv => isVoid_iff.mpr (.inl (hvs v hv))
    obtain ⟨f, fs, rfl⟩ := List.exists_cons_of_ne_nil hne
    rw [hp, hj, List.cons_append, List.cons_append, divide, divide]
    by_cases hf : f = ""
    case pos =>
      have hrest : fs ++ vs ≠ [] := fun hr =>
        he (by rw [text_eq, hp, hf, List.cons_append, hr]; rfl)
      rw [if_pos hf, if_pos hf, if_neg hrest, if_neg (by simp)]
      exact ⟨.root, fs, vs, hvoid, rfl, rfl⟩
    case neg =>
      rw [if_neg hf, if_neg hf]
      by_cases hh : f = "."
      case pos => exact ⟨.here, fs, vs, hvoid, by rw [if_pos hh], by rw [if_pos hh]⟩
      case neg => exact ⟨.none, f :: fs, vs, hvoid, by rw [if_neg hh]; rfl, by rw [if_neg hh]; rfl⟩

theorem components_join (hc : IsMove c) : (p.join ⟨c.text⟩).components = p.components ++ [c] := by
  obtain ⟨start, ps, vs, hvs, hp, hj⟩ := split_join (p := p) hc.isPiece (by simp [hc.not_isVoid])
  rw [components, components, hp, hj, List.filterMap_append, List.filterMap_append,
    filterMap_of_void hvs, List.append_nil, ← List.append_assoc]
  simp [hc.ofPiece?]

theorem components_foldl_join (h : ∀ c ∈ cs, IsMove c) :
    (cs.foldl (fun q c => q.join ⟨c.text⟩) p).components = p.components ++ cs := by
  induction cs generalizing p with
  | nil => simp
  | cons c cs ih =>
    have ⟨hc, hcs⟩ := List.forall_mem_cons.mp h
    rw [List.foldl_cons, ih hcs, components_join hc, List.append_assoc, List.singleton_append]

theorem isMove_names (ho : AllOrdinary names) : ∀ c ∈ names.map Component.name, IsMove c := by
  intro c hc
  obtain ⟨s, hs, rfl⟩ := List.mem_map.mp hc
  exact .inr ⟨s, ho s hs, rfl⟩

theorem components_joined (ho : AllOrdinary names) :
    (names.foldl (fun q s => q.join ⟨s⟩) p).components = p.components ++ names.map .name := by
  have h := components_foldl_join (p := p) (isMove_names ho)
  rwa [List.foldl_map] at h

end Join

section Prefixes

theorem prefixesOf_append (start : Start) (h : ∀ s ∈ vs, IsVoid s) :
    prefixesOf start (vs ++ ps) = prefixesOf start ps := by
  induction vs with
  | nil => rfl
  | cons s vs ih =>
    have ⟨hs, hv⟩ := List.forall_mem_cons.mp h
    rw [List.cons_append, prefixesOf, if_pos hs, ih hv]

theorem exists_prefixesOf (h : Follows start ps.reverse) :
    ∃ qs, qs <+: ps.reverse ∧ (∀ s ∈ qs.getLast?, ¬ IsVoid s) ∧
      prefixesOf start ps = assemble start qs :: (assemble start qs).parents ∧
      (assemble start qs).components =
        start.components ++ (ps.filterMap Component.ofPiece?).reverse := by
  induction ps with
  | nil =>
    refine ⟨[], List.prefix_rfl, by simp, ?_, ?_⟩ <;> cases start <;> decide
  | cons s before ih =>
    rw [List.reverse_cons] at h ⊢
    by_cases hv : IsVoid s
    case pos =>
      obtain ⟨qs, hqs, hq⟩ := ih (h.of_prefix (List.prefix_append _ _))
      rw [prefixesOf, if_pos hv, List.filterMap_cons_none (Component.ofPiece?_of_isVoid hv)]
      exact ⟨qs, hqs.trans (List.prefix_append _ _), hq⟩
    case neg =>
      have hsplit := h.split_assemble fun _ => by simp
      refine ⟨_, List.prefix_rfl, ?_, ?_, ?_⟩
      · simpa using hv
      · rw [prefixesOf, if_neg hv, List.reverse_cons, parents, hsplit, List.reverse_concat,
          List.reverse_reverse, prefixesOf, if_neg hv, List.tail_cons]
      · rw [components, hsplit, ← List.reverse_cons, List.filterMap_reverse]

theorem exists_parents {ds : List Component}
    (h : p.split.2.filterMap Component.ofPiece? = ds ++ [c]) :
    ∃ qs, qs <+: p.split.2 ∧ (∀ s ∈ qs.getLast?, ¬ IsVoid s) ∧
      p.parents = assemble p.split.1 qs :: (assemble p.split.1 qs).parents ∧
      (assemble p.split.1 qs).components = p.split.1.components ++ ds := by
  have hc : p.split.2.reverse.filterMap Component.ofPiece? = c :: ds.reverse := by
    rw [List.filterMap_reverse, h, List.reverse_concat]
  obtain ⟨vs, s, before, hrest, hvs, hs, hbefore⟩ := List.filterMap_eq_cons_iff.mp hc
  have hv : ∀ t ∈ vs, IsVoid t := fun t ht => Component.isVoid_of_ofPiece? (hvs t ht)
  have hn : ¬ IsVoid s := fun hv => by simp [Component.ofPiece?_of_isVoid hv] at hs
  have hpre : before.reverse <+: p.split.2 := by
    rw [← List.reverse_suffix, List.reverse_reverse, hrest]
    exact (List.suffix_cons s before).trans (List.suffix_append vs _)
  obtain ⟨qs, hqs, hlast, hprefixes, hqc⟩ := exists_prefixesOf (p.follows_split.of_prefix hpre)
  refine ⟨qs, hqs.trans hpre, hlast, ?_, ?_⟩
  · rw [parents, hrest, prefixesOf_append _ hv, prefixesOf, if_neg hn, List.tail_cons, hprefixes]
  · rw [hqc, hbefore, List.reverse_reverse]

theorem parents_cases (p : Path) :
    p.parents = [] ∨ ∃ q c, p.parents = q :: q.parents ∧ p.components = q.components ++ [c] := by
  rcases List.eq_nil_or_concat (p.split.2.filterMap Component.ofPiece?) with h | ⟨ds, c, h⟩
  case inl =>
    have hv : ∀ s ∈ p.split.2.reverse, IsVoid s := fun s hs =>
      Component.isVoid_of_ofPiece? (List.filterMap_eq_nil_iff.mp h s (List.mem_reverse.mp hs))
    have hp : prefixesOf p.split.1 (p.split.2.reverse ++ []) = _ := prefixesOf_append p.split.1 hv
    rw [List.append_nil] at hp
    rw [parents, components, hp, h]
    cases p.split.1 with
    | root => exact .inl rfl
    | here => exact .inr ⟨empty, .here, by decide, by decide⟩
    | none => exact .inl rfl
  case inr =>
    obtain ⟨qs, _, _, hp, hc⟩ := exists_parents (h.trans List.concat_eq_append)
    refine .inr ⟨_, c, hp, ?_⟩
    rw [hc, components, h, List.append_assoc]
    simp

def prefixes (p : Path) : List Path :=
  prefixesOf p.split.1 p.split.2.reverse

theorem exists_prefixes_eq (p : Path) :
    ∃ q : Path, p.prefixes = q :: q.parents ∧ q.components = p.components := by
  have hf : Follows p.split.1 p.split.2.reverse.reverse := by
    rw [List.reverse_reverse]
    exact p.follows_split
  obtain ⟨qs, _, _, hp, hc⟩ := exists_prefixesOf hf
  refine ⟨_, hp, ?_⟩
  rw [hc, List.filterMap_reverse, List.reverse_reverse]
  rfl

theorem parents_join (hc : IsMove c) : (p.join ⟨c.text⟩).parents = p.prefixes := by
  have hv : ¬ IsVoid c.text := by simp [hc.not_isVoid]
  obtain ⟨start, ps, vs, hvs, hp, hj⟩ := split_join (p := p) hc.isPiece hv
  rw [parents, hj, prefixes, hp, List.reverse_concat, prefixesOf, if_neg hv, List.tail_cons,
    List.reverse_append, prefixesOf_append start fun v h => hvs v (List.mem_reverse.mp h)]

theorem prefixes_join (hc : IsMove c) :
    (p.join ⟨c.text⟩).prefixes = p.join ⟨c.text⟩ :: (p.join ⟨c.text⟩).parents := by
  have hv : ¬ IsVoid c.text := by simp [hc.not_isVoid]
  obtain ⟨start, ps, vs, hvs, hp, hj⟩ := split_join (p := p) hc.isPiece hv
  have ha := (p.join ⟨c.text⟩).assemble_split
  rw [hj] at ha
  rw [prefixes, parents, hj, List.reverse_concat, prefixesOf, if_neg hv, List.tail_cons,
    List.reverse_cons, List.reverse_reverse, ha]

end Prefixes
end Path
end TarGuard
