import TarGuard.Proofs.Joining

namespace TarGuard

namespace Path

variable {p : Path} {ps vs : List String} {cs : List Component} {c : Component}

def telling (ps : List String) : List String :=
  ps.filter fun s => !IsVoid s

theorem telling_append (ps qs : List String) : telling (ps ++ qs) = telling ps ++ telling qs :=
  List.filter_append ps qs

theorem telling_eq_nil_iff : telling ps = [] ↔ ∀ s ∈ ps, IsVoid s := by
  simp [telling]

theorem telling_filter (ps : List String) : telling (ps.filter (· ≠ "")) = telling ps := by
  rw [telling, List.filter_filter]
  refine List.filter_congr fun s _ => ?_
  by_cases hs : s = ""
  · subst hs
    rfl
  · simp [hs]

theorem telling_map_text (h : ∀ c ∈ cs, IsMove c) :
    telling (cs.map Component.text) = cs.map Component.text := by
  refine List.filter_eq_self.mpr fun s hs => ?_
  obtain ⟨c, hc, rfl⟩ := List.mem_map.mp hs
  rw [(h c hc).not_isVoid]
  rfl

theorem telling_eq (ps : List String) :
    telling ps = (ps.filterMap Component.ofPiece?).map Component.text := by
  induction ps with
  | nil => rfl
  | cons s ps ih =>
    cases hc : Component.ofPiece? s with
    | none =>
      have hs := Component.isVoid_of_ofPiece? hc
      rw [List.filterMap_cons_none hc, ← ih, telling, List.filter_cons_of_neg (by simp [hs]), telling]
    | some c =>
      have hs : ¬ IsVoid s := fun hs => by simp [Component.ofPiece?_of_isVoid hs] at hc
      rw [List.filterMap_cons_some hc, List.map_cons, Component.text_of_ofPiece? hc, ← ih, telling,
        List.filter_cons_of_pos (by simpa using hs), telling]

theorem filterMap_words (p : Path) :
    p.words.filterMap Component.ofPiece? = p.split.2.filterMap Component.ofPiece? := by
  have hpieces : p.words.filterMap Component.ofPiece? = p.pieces.filterMap Component.ofPiece? := by
    rw [words, List.filterMap_filter]
    refine List.filterMap_congr fun s _ => ?_
    by_cases he : s = ""
    · rw [he]
      rfl
    · rw [if_pos (by simpa using he)]
  rw [hpieces]
  unfold split
  split
  case h_1 h => split <;> rw [h] <;> rfl
  case h_2 h => rw [h]; rfl
  case h_3 => rfl

def said : Component → Option String
  | .name s => some s
  | .up => some ".."
  | .root | .here => none

theorem filterMap_said (h : ∀ c ∈ cs, IsMove c) : cs.filterMap said = cs.map Component.text := by
  rw [← List.filterMap_eq_map]
  refine List.filterMap_congr fun c hc => ?_
  rcases h c hc with rfl | ⟨s, _, rfl⟩
  all_goals rfl

theorem telling_words_eq (p : Path) : telling p.words = p.components.filterMap said := by
  obtain ⟨cs, hc, hm⟩ := p.exists_moves
  have hstart : p.split.1.components.filterMap said = [] := by cases p.split.1 <;> rfl
  have hcs : p.split.2.filterMap Component.ofPiece? = cs := List.append_cancel_left hc
  rw [telling_eq, filterMap_words, hcs, hc, List.filterMap_append, hstart, List.nil_append,
    filterMap_said hm]

theorem getLast?_components_of_words {front : List String} {s : String} (h : p.words = front ++ [s])
    (hs : Component.ofPiece? s = some c) : p.components.getLast? = some c := by
  rw [components, ← filterMap_words, h, List.filterMap_append, List.filterMap_cons_some hs,
    List.filterMap_nil, ← List.append_assoc, List.getLast?_concat]

theorem fileName?_of_words {front : List String} {s : String} (h : p.words = front ++ [s])
    (hs : Component.ofPiece? s = some (.name s)) : p.fileName? = some s := by
  rw [fileName?, getLast?_components_of_words h hs]

theorem telling_words (h : p.components = .root :: cs) (ha : p.IsAbsolute) :
    telling p.words = cs.map Component.text := by
  have hc := components_eq_words ha
  rw [h, List.cons.injEq] at hc
  rw [telling_eq, hc.2]

theorem telling_lookupPieces (h : p.components = .root :: cs) (ha : p.IsAbsolute) :
    telling (FileSystem.lookupPieces p.text) = cs.map Component.text := by
  rcases FileSystem.lookupPieces_eq_or p with hp | hp
  · rw [hp, telling_words h ha]
  · rw [hp, telling_append, telling_words h ha, show telling [""] = [] from rfl, List.append_nil]

theorem mem_of_mem_splitOn {α : Type} [DecidableEq α] {a x : α} {xs l : List α}
    (h : l ∈ xs.splitOn a) (hx : x ∈ l) : x ∈ xs := by
  obtain ⟨i, hi⟩ := List.mem_iff_getElem?.mp h
  have hi' : ((xs.splitOn a).intersperse [a])[2 * i]? = some l := by
    rw [List.getElem?_intersperse_two_mul, hi]
  have hm : x ∈ [a].intercalate (xs.splitOn a) :=
    List.mem_flatten.mpr ⟨l, List.mem_of_getElem? hi', hx⟩
  rwa [List.intercalate_splitOn a] at hm

theorem mem_text_of_mem_components {s : String} {x : Char} (ha : p.IsAbsolute)
    (h : .name s ∈ p.components) (hx : x ∈ s.toList) : x ∈ p.text.toList := by
  rw [components_eq_words ha, List.mem_cons] at h
  rcases h with h | h
  · cases h
  · obtain ⟨t, ht, hs⟩ := List.mem_filterMap.mp h
    have hts : s = t := Component.text_of_ofPiece? hs
    obtain ⟨l, hl, hlt⟩ := List.mem_map.mp (List.mem_filter.mp ht).1
    refine mem_of_mem_splitOn hl ?_
    rwa [← String.toList_ofList (l := l), hlt, ← hts]

theorem isAbsolute_of_components (h : p.components = .root :: cs) : p.IsAbsolute := by
  by_contra ha
  have hm : ∀ c ∈ p.plainComponents, IsMove c := isMove_of_mem_plainComponents ha
  have hp : p.plainComponents = .root :: cs := by rw [plainComponents, h]
  rcases hm .root (by simp [hp]) with h | ⟨_, _, h⟩ <;> cases h

theorem isMove_of_components (h : p.components = .root :: cs) : ∀ c ∈ cs, IsMove c := by
  obtain ⟨cs', hc, hm⟩ := components_of_isAbsolute (isAbsolute_of_components h)
  cases h.symm.trans hc
  exact hm

theorem isMove_last (h : p.components = .root :: (cs ++ [c])) : IsMove c :=
  isMove_of_components h c (List.mem_append_right cs List.mem_cons_self)

-- There is no slash and no `.` behind the last component.
def EndsPlainly (p : Path) : Prop :=
  ∀ s ∈ p.pieces.getLast?, ¬ IsVoid s

theorem words_of_endsPlainly (h : p.EndsPlainly) :
    ∃ front s, p.words = front ++ [s] ∧ ¬ IsVoid s := by
  obtain ⟨front, s, hp⟩ : ∃ front s, p.pieces = front ++ [s] :=
    ⟨_, _, (List.dropLast_append_getLast p.pieces_ne_nil).symm⟩
  have hs : ¬ IsVoid s := h s (by simp [hp])
  have he : s ≠ "" := fun he => hs (by rw [he]; rfl)
  refine ⟨front.filter (· ≠ ""), s, ?_, hs⟩
  rw [words, hp, List.filter_append]
  simp [he]

theorem lookupPieces_of_endsPlainly (h : p.EndsPlainly) :
    FileSystem.lookupPieces p.text = p.words := by
  have hslash : p.text.toList.getLast? ≠ some '/' := by
    intro hl
    obtain ⟨cs, hcs⟩ := List.getLast?_eq_some_iff.mp hl
    refine h "" ?_ rfl
    rw [pieces, hcs, List.splitOn_append_cons_self, List.map_append]
    simp
  simp only [FileSystem.lookupPieces, hslash, and_false, if_false]
  rfl

theorem eq_nil_of_endsPlainly {front : List String} {s : String} (h : p.EndsPlainly)
    (hp : FileSystem.lookupPieces p.text = front ++ s :: vs) (hv : ∀ t ∈ vs, IsVoid t) :
    vs = [] := by
  obtain ⟨front', t, ht, hvoid⟩ := words_of_endsPlainly h
  rw [lookupPieces_of_endsPlainly h, ht] at hp
  by_contra hne
  have hlast : vs.getLast? = some t := by
    rw [← List.getLast?_append_of_ne_nil (front ++ [s]) hne, ← List.append_cons, ← hp,
      List.getLast?_concat]
  exact hvoid (hv t (List.mem_of_getLast? hlast))

theorem exists_parents_eq (h : p.components = .root :: (cs ++ [c])) :
    ∃ q : Path, p.parents = q :: q.parents ∧ q.components = .root :: cs ∧
      (q.EndsPlainly ∨ cs = []) ∧ ∃ t, p.text = q.text ++ t := by
  have hstart := isAbsolute_iff_start.mp (isAbsolute_of_components h)
  have hrest : p.split.2.filterMap Component.ofPiece? = cs ++ [c] := by
    rw [components, hstart] at h
    exact (List.cons.inj h).2
  obtain ⟨qs, ⟨more, hmore⟩, hlast, hparents, hqc⟩ := exists_parents hrest
  rw [hstart] at hparents hqc
  refine ⟨_, hparents, hqc, ?_, ?_⟩
  · by_cases hne : qs = []
    case pos =>
      rw [hne] at hqc
      exact .inr (List.cons.inj hqc).2.symm
    case neg =>
      refine .inl fun s hs => hlast s ?_
      have hslash : ∀ s ∈ qs, '/' ∉ s.toList := fun s hs =>
        p.follows_split.no_slash s (hmore ▸ List.mem_append_left more hs)
      rwa [pieces_assemble hslash hne, ← List.singleton_append,
        List.getLast?_append_of_ne_nil _ hne] at hs
  · obtain ⟨t, ht⟩ := exists_assemble_append qs more
    refine ⟨t, ?_⟩
    rw [← ht, hmore, ← hstart, assemble_split]

end Path
end TarGuard
