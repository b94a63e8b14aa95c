import TarGuard.Proofs.Fields
import TarGuard.Proofs.Pieces

namespace TarGuard.EntryPath

open FileSystem

variable {limits : Limits} {bound : UInt64} {path s : String} {words : List String} {c : Char}
  {cs pattern : List Char}

section Characters

def IsWordChar (c : Char) : Prop :=
  ('A' ≤ c ∧ c ≤ 'Z') ∨ ('a' ≤ c ∧ c ≤ 'z') ∨ ('0' ≤ c ∧ c ≤ '9') ∨ c ∈ ['-', '_', '.', ' ']

theorem isAllowed_iff : isAllowed c ↔ IsWordChar c := by
  have hc : isAllowed c ↔ (c.isAlpha ∨ c.isDigit) ∨ c ∈ ['-', '_', '.', ' '] := by
    simp [isAllowed, Char.isAlphanum, or_assoc]
  have halpha : c.isAlpha ↔ c.isUpper ∨ c.isLower := Bool.or_eq_true_iff
  have hupper : c.isUpper ↔ 'A' ≤ c ∧ c ≤ 'Z' := decide_eq_true_iff
  have hlower : c.isLower ↔ 'a' ≤ c ∧ c ≤ 'z' :=
    Bool.and_eq_true_iff.trans (and_congr decide_eq_true_iff decide_eq_true_iff)
  have hdigit : c.isDigit ↔ '0' ≤ c ∧ c ≤ '9' :=
    Bool.and_eq_true_iff.trans (and_congr decide_eq_true_iff decide_eq_true_iff)
  rw [hc, halpha, hupper, hlower, hdigit, IsWordChar, or_assoc, or_assoc]

theorem isPlain_of_isAllowed (h : isAllowed c) : FieldText.IsPlain c := by
  have hle {low high : Char} (hlow : ' ' ≤ low) (hhigh : high ≤ '~') (hc : low ≤ c ∧ c ≤ high) :
      FieldText.IsPlain c :=
    .inr ⟨Char.le_trans hlow hc.1, Char.le_trans hc.2 hhigh⟩
  rcases isAllowed_iff.mp h with hc | hc | hc | hm
  · exact hle (by decide) (by decide) hc
  · exact hle (by decide) (by decide) hc
  · exact hle (by decide) (by decide) hc
  · simp only [List.mem_cons, List.not_mem_nil, or_false] at hm
    rcases hm with rfl | rfl | rfl | rfl <;> exact .inr (by decide)

theorem isPrintable_of_isPlain (h : FieldText.IsPlain c) : isPrintable c := by
  simpa [isPrintable, FieldText.IsPlain] using h

theorem contains_iff : contains pattern cs ↔ pattern <:+: cs := by
  induction cs with
  | nil => simp [contains]
  | cons d cs ih =>
    rw [contains, Bool.or_eq_true, ih, List.isPrefixOf_iff_prefix, List.infix_cons_iff]

theorem infix_of_infix_append_slash {xs ys : List Char} (hs : '/' ∉ pattern)
    (h : pattern <:+: xs ++ '/' :: ys) : pattern <:+: xs ∨ pattern <:+: ys := by
  have hnil {l : List Char} (hl : l <+: '/' :: ys) (hm : '/' ∉ l) : l = [] := by
    rcases List.prefix_cons_iff.mp hl with hl | ⟨_, rfl, _⟩
    · exact hl
    · exact absurd List.mem_cons_self hm
  rcases List.infix_append_iff.mp h with h | h | ⟨l₁, l₂, rfl, h₁, h₂⟩
  · exact .inl h
  · rcases List.infix_cons_iff.mp h with h | h
    · exact .inl (hnil h hs ▸ List.nil_infix)
    · exact .inr h
  · have hl : l₂ = [] := hnil h₂ fun hm => hs (List.mem_append_right l₁ hm)
    exact .inl (hl ▸ (List.append_nil l₁).symm ▸ h₁.isInfix)

theorem infix_piece (hs : '/' ∉ pattern) (h : pattern <:+: cs) :
    ∃ l ∈ cs.splitOn '/', pattern <:+: l := by
  rw [← @List.intercalate_splitOn _ cs _ _ '/'] at h
  generalize hls : cs.splitOn '/' = ls at h
  have hne : ls ≠ [] := hls ▸ List.splitOn_ne_nil _ _
  clear hls
  induction ls with
  | nil => exact absurd rfl hne
  | cons l ls ih =>
    cases ls with
    | nil =>
      rw [List.intercalate_singleton] at h
      exact ⟨l, List.mem_cons_self, h⟩
    | cons l' ls =>
      rw [List.intercalate_cons_cons, List.append_assoc, List.singleton_append] at h
      rcases infix_of_infix_append_slash hs h with h | h
      · exact ⟨l, List.mem_cons_self, h⟩
      · obtain ⟨m, hm, hp⟩ := ih h (List.cons_ne_nil _ _)
        exact ⟨m, List.mem_cons_of_mem l hm, hp⟩

end Characters

section Split

theorem eq_dropTrailingSlash (cs : List Char) :
    cs = dropTrailingSlash cs ∨ cs = dropTrailingSlash cs ++ ['/'] := by
  unfold dropTrailingSlash
  split
  case isTrue h =>
    obtain ⟨front, rfl⟩ := List.getLast?_eq_some_iff.mp h
    exact .inr (by rw [List.dropLast_concat])
  case isFalse => exact .inl rfl

theorem eq_intercalate_split (path : String) :
    path = "/".intercalate (split path) ∨ path = "/".intercalate (split path) ++ "/" := by
  have hs : ("/".intercalate (split path)).toList = dropTrailingSlash path.toList := by
    simp [split, Function.comp_def, List.intercalate_splitOn]
  rw [← String.toList_inj, ← String.toList_inj, String.toList_append, hs]
  exact eq_dropTrailingSlash path.toList

theorem split_append_slash (path : String) : split (path ++ "/") = Path.pieces ⟨path⟩ := by
  have hl : (path ++ "/").toList = path.toList ++ ['/'] := by simp
  rw [split, hl, dropTrailingSlash, if_pos List.getLast?_concat, List.dropLast_concat]
  rfl

theorem split_intercalate (hw : ∀ w ∈ words, IsPiece w) (hne : words ≠ []) :
    split ("/".intercalate words) = words := by
  have hp := Path.pieces_intercalate (fun w h => (hw w h).no_slash) hne
  rcases eq_dropTrailingSlash ("/".intercalate words).toList with he | he
  case inl =>
    rw [split, ← he]
    exact hp
  case inr =>
    -- A slash at the end would leave an empty piece.
    refine absurd rfl (hw "" ?_).ne_empty
    rw [← hp, Path.pieces, he, List.splitOn_append_cons_self]
    simp

theorem split_intercalate_append_slash (hw : ∀ w ∈ words, IsPiece w) (hne : words ≠ []) :
    split ("/".intercalate words ++ "/") = words := by
  rw [split_append_slash, Path.pieces_intercalate (fun w h => (hw w h).no_slash) hne]

theorem mem_split_of_mem_splitOn {l : List Char} (h : l ∈ path.toList.splitOn '/') :
    l = [] ∨ String.ofList l ∈ split path := by
  rcases eq_dropTrailingSlash path.toList with hp | hp
  · rw [hp] at h
    exact .inr (List.mem_map_of_mem h)
  · rw [hp, List.splitOn_append_cons_self, List.splitOn_nil, List.mem_append,
      List.mem_singleton] at h
    exact h.symm.imp_right List.mem_map_of_mem

theorem mem_split_of_mem_dropLast {l : List Char} (h : l ∈ (path.toList.splitOn '/').dropLast) :
    String.ofList l ∈ split path := by
  rcases eq_dropTrailingSlash path.toList with hp | hp
  · rw [hp] at h
    exact List.mem_map_of_mem (List.dropLast_subset _ h)
  · rw [hp, List.splitOn_append_cons_self, List.splitOn_nil, List.dropLast_concat] at h
    exact List.mem_map_of_mem h

end Split

section Marks

theorem IsSafeComponent.isAllowed (h : IsSafeComponent bound s) : ∀ c ∈ s.toList, isAllowed c :=
  List.all_eq_true.mp h.2.2.2.2.2

variable (h : ∀ s ∈ split path, IsSafeComponent bound s)

include h

theorem isAllowed_or_eq_slash (hc : c ∈ path.toList) : isAllowed c ∨ c = '/' := by
  refine or_iff_not_imp_right.mpr fun hne => ?_
  have hs : '/' ∉ [c] := by simpa using Ne.symm hne
  obtain ⟨l, hl, hm⟩ := infix_piece hs ((List.singleton_infix_iff c _).mpr hc)
  rw [List.singleton_infix_iff] at hm
  rcases mem_split_of_mem_splitOn hl with rfl | hl
  · cases hm
  · exact (h _ hl).isAllowed c (String.toList_ofList ▸ hm)

theorem not_infix_dots : ¬ ['.', '.'] <:+: path.toList := by
  intro hd
  obtain ⟨l, hl, hd⟩ := infix_piece (by decide) hd
  rcases mem_split_of_mem_splitOn hl with rfl | hl
  · cases List.infix_nil.mp hd
  · obtain ⟨_, _, _, _, hdots, _⟩ := h _ hl
    rw [contains_iff, String.toList_ofList] at hdots
    exact hdots hd

theorem nil_not_mem_of_slash (xs ys : List Char) (hp : path.toList = xs ++ '/' :: ys) :
    [] ∉ xs.splitOn '/' := by
  intro hm
  have hd : [] ∈ (path.toList.splitOn '/').dropLast := by
    rw [hp, List.splitOn_append_cons_self,
      List.dropLast_append_of_ne_nil (List.splitOn_ne_nil _ _)]
    exact List.mem_append_left _ hm
  exact (h _ (mem_split_of_mem_dropLast hd)).1 String.toList_ofList

theorem not_infix_slashes : ¬ ['/', '/'] <:+: path.toList := by
  rintro ⟨xs, ys, he⟩
  refine nil_not_mem_of_slash h (xs ++ ['/']) ys (by simp [← he]) ?_
  rw [List.splitOn_append_cons_self]
  simp

theorem head?_ne_slash : path.toList.head? ≠ some '/' := by
  intro hf
  obtain ⟨ys, hp⟩ := List.head?_eq_some_iff.mp hf
  exact nil_not_mem_of_slash h [] ys hp (by simp)

theorem not_isSuspicious : ¬ isSuspicious path.toList := by
  have hstart : forbiddenStarts.all fun c => c = '/' ∨ ¬ isAllowed c := by decide
  have hshell : shellCharacters.all fun c => c ≠ '/' ∧ ¬ isAllowed c := by decide
  have hbackslash {pattern : List Char} (hm : '\\' ∈ pattern) : ¬ pattern <:+: path.toList :=
    fun hp => absurd (isAllowed_or_eq_slash h (hp.subset hm)) (by decide)
  rw [isSuspicious, Bool.or_eq_true, Bool.or_eq_true, not_or, not_or]
  refine ⟨⟨fun hany => ?sequence, fun hany => ?start⟩, fun hany => ?shell⟩
  case sequence =>
    obtain ⟨pattern, hp, hc⟩ := List.any_eq_true.mp hany
    rw [contains_iff] at hc
    simp only [forbiddenSequences, List.mem_cons, List.not_mem_nil, or_false] at hp
    rcases hp with rfl | rfl | rfl | rfl | rfl
    · exact not_infix_dots h (List.IsInfix.trans ⟨[], ['/'], rfl⟩ hc)
    · exact hbackslash (by decide) hc
    · exact not_infix_slashes h hc
    · exact hbackslash (by decide) hc
    · exact hbackslash (by decide) hc
  case start =>
    obtain ⟨c, hc, hm⟩ := Option.any_eq_true _ _ |>.mp hany
    rcases of_decide_eq_true (List.all_eq_true.mp hstart c (by simpa using hm)) with rfl | hn
    · exact head?_ne_slash h hc
    · refine (isAllowed_or_eq_slash h (List.mem_of_mem_head? hc)).elim hn ?_
      rintro rfl
      exact head?_ne_slash h hc
  case shell =>
    obtain ⟨c, hc, hm⟩ := List.any_eq_true.mp hany
    have hn := of_decide_eq_true (List.all_eq_true.mp hshell c (by simpa using hm))
    exact (isAllowed_or_eq_slash h hc).elim hn.2 hn.1

theorem all_isPrintable : path.toList.all isPrintable := by
  rw [List.all_eq_true]
  intro c hc
  rcases isAllowed_or_eq_slash h hc with hc | rfl
  · exact isPrintable_of_isPlain (isPlain_of_isAllowed hc)
  · decide

end Marks

section Words

structure IsWord (bound : Nat) (s : String) : Prop where
  ne_empty : s ≠ ""
  size     : s.utf8ByteSize ≤ bound
  no_first : s.toList.head? ≠ some '.'
  no_last  : s.toList.getLast? ≠ some '.'
  no_dots  : ¬ ['.', '.'] <:+: s.toList
  chars    : ∀ c ∈ s.toList, IsWordChar c

structure Spells (limits : Limits) (words : List String) (path : String) : Prop where
  text   : path = "/".intercalate words ∨ path = "/".intercalate words ++ "/"
  ne_nil : words ≠ []
  size   : path.utf8ByteSize ≤ limits.pathLength.toNat
  depth  : words.length ≤ limits.pathDepth.toNat
  isWord : ∀ w ∈ words, IsWord limits.componentLength.toNat w

theorem isSafeComponent_iff : IsSafeComponent bound s ↔ IsWord bound.toNat s := by
  have hchars : s.toList.all isAllowed ↔ ∀ c ∈ s.toList, IsWordChar c := by
    simp only [List.all_eq_true, isAllowed_iff]
  have hne : s.toList ≠ [] ↔ s ≠ "" := by simp
  rw [IsSafeComponent, hne, contains_iff, hchars]
  constructor
  case mp =>
    rintro ⟨hne, hsize, hfirst, hlast, hdots, hchars⟩
    exact ⟨hne, hsize, hfirst, hlast, hdots, hchars⟩
  case mpr =>
    intro h
    exact ⟨h.ne_empty, h.size, h.no_first, h.no_last, h.no_dots, h.chars⟩

theorem IsWord.isPiece {n : Nat} (h : IsWord n s) : IsPiece s where
  ne_empty := h.ne_empty
  no_slash hm := absurd (isAllowed_iff.mpr (h.chars _ hm)) (by decide)

theorem Spells.split_eq (h : Spells limits words path) : split path = words := by
  have hp : ∀ w ∈ words, IsPiece w := fun w hw => (h.isWord w hw).isPiece
  rcases h.text with rfl | rfl
  · exact split_intercalate hp h.ne_nil
  · exact split_intercalate_append_slash hp h.ne_nil

theorem Spells.components_eq (h : Spells limits words path) :
    components limits path = .ok words := by
  have hs : ∀ s ∈ split path, IsSafeComponent limits.componentLength s := by
    rw [h.split_eq]
    exact fun s hm => isSafeComponent_iff.mpr (h.isWord s hm)
  have hne : path ≠ "" := by
    rintro rfl
    exact absurd (hs "" (by decide)).1 (by decide)
  have hd : (split path).length ≤ limits.pathDepth.toNat := h.split_eq ▸ h.depth
  rw [components,
    if_pos ⟨hne, h.size, all_isPrintable hs, not_isSuspicious hs, hd, hs⟩, h.split_eq]

theorem spells_of_components (h : components limits path = .ok words) :
    Spells limits words path := by
  unfold components at h
  split at h
  case isTrue ha =>
    cases h
    obtain ⟨_, hsize, _, _, hdepth, hsafe⟩ := ha
    exact {
      text   := eq_intercalate_split path
      ne_nil := split_ne_nil path
      size   := hsize
      depth  := hdepth
      isWord := fun s hs => isSafeComponent_iff.mp (hsafe s hs)
    }
  case isFalse => cases h

theorem components_eq_error_of_not_ok (h : ∀ words, components limits path ≠ .ok words) :
    components limits path = .error .pathTraversal := by
  unfold components at h ⊢
  split
  case isTrue hc => exact absurd (if_pos hc) (h _)
  case isFalse => rfl

-- A path is accepted if some words spell it, as these words, and the only way to go wrong is that
-- none do. Components that are safe make the search for marks needless.
theorem components_eq_ok_iff_spells (limits : Limits) (path : String) :
    (∀ words, components limits path = .ok words ↔ Spells limits words path) ∧
    (components limits path = .error .pathTraversal ↔ ∀ words, ¬ Spells limits words path) ∧
    ∀ bound, (∀ s ∈ split path, IsSafeComponent bound s) →
      path.toList.all isPrintable ∧ ¬ isSuspicious path.toList := by
  have hiff (words) : components limits path = .ok words ↔ Spells limits words path :=
    ⟨spells_of_components, Spells.components_eq⟩
  refine ⟨hiff, ⟨fun he words hs => ?_, fun hn => ?_⟩, ?_⟩
  · rw [hs.components_eq] at he
    cases he
  · exact components_eq_error_of_not_ok fun words hw => hn words ((hiff words).mp hw)
  · exact fun _ hs => ⟨all_isPrintable hs, not_isSuspicious hs⟩

theorem components_eq_ok_iff_spells_docs :
    components {} "docs/a/" = .ok ["docs", "a"] ∧ Spells {} ["docs", "a"] "docs/a/" ∧
      (∀ words, ¬ Spells {} words "docs//a") ∧
      (∀ s ∈ split "docs/a/", IsSafeComponent 4 s) ∧ ¬ isSuspicious "docs/a/".toList := by
  have hok : components {} "docs/a/" = .ok ["docs", "a"] := by decide +kernel
  have herror : components {} "docs//a" = .error .pathTraversal := by decide +kernel
  have hsafe : ∀ s ∈ split "docs/a/", IsSafeComponent 4 s := by decide +kernel
  obtain ⟨hspells, _, hmarks⟩ := components_eq_ok_iff_spells {} "docs/a/"
  exact ⟨hok, (hspells _).mp hok, (components_eq_ok_iff_spells {} "docs//a").2.1.mp herror, hsafe,
    (hmarks 4 hsafe).2⟩

end Words

end TarGuard.EntryPath
