import Mathlib.Data.List.Infix
import TarGuard.EntryPath
import TarGuard.FileSystem.Lookup

namespace TarGuard

-- What can be one component of a path. It may still be too long for a file, or hold a NUL.
structure IsOrdinary (s : String) : Prop where
  ne_empty : s ≠ ""
  ne_here  : s ≠ "."
  ne_up    : s ≠ ".."
  no_slash : '/' ∉ s.toList

namespace IsOrdinary

variable {s : String}

theorem isFileName (h : IsOrdinary s) (hz : '\x00' ∉ s.toList) (hl : s.utf8ByteSize ≤ 255) :
    IsFileName s :=
  ⟨h.ne_empty, h.ne_here, h.ne_up, h.no_slash, hz, hl⟩

theorem toList_ne_nil (h : IsOrdinary s) : s.toList ≠ [] := by
  simpa using h.ne_empty

theorem ofPiece? (h : IsOrdinary s) : Component.ofPiece? s = some (.name s) := by
  unfold Component.ofPiece?
  split
  · exact absurd rfl h.ne_empty
  · exact absurd rfl h.ne_here
  · exact absurd rfl h.ne_up
  · rfl

theorem not_isVoid (h : IsOrdinary s) : Path.IsVoid s = false := by
  simp [Path.IsVoid, h.ne_empty, h.ne_here]

theorem not_isAbsolute (h : IsOrdinary s) : ¬ Path.IsAbsolute ⟨s⟩ := by
  intro ha
  have := List.mem_of_mem_head? ha
  exact h.no_slash this

end IsOrdinary

namespace Path

variable {ps : List String}

theorem toList_assemble (ps : List String) :
    (assemble .root ps).text.toList = '/' :: ['/'].intercalate (ps.map String.toList) := by
  simp [assemble]

theorem isAbsolute_assemble (ps : List String) : (assemble .root ps).IsAbsolute := by
  simp [IsAbsolute, toList_assemble]

theorem splitOn_assemble (h : ∀ s ∈ ps, '/' ∉ s.toList) (hne : ps ≠ []) :
    (assemble .root ps).text.toList.splitOn '/' = [] :: ps.map String.toList := by
  have hs : ∀ l ∈ ps.map String.toList, '/' ∉ l := by simpa using h
  rw [toList_assemble, ← List.nil_append ('/' :: _),
    List.splitOn_append_cons_self_of_not_mem (by simp),
    List.splitOn_intercalate '/' hs (by simpa using hne)]

theorem pieces_assemble (h : ∀ s ∈ ps, '/' ∉ s.toList) (hne : ps ≠ []) :
    (assemble .root ps).pieces = "" :: ps := by
  rw [pieces, splitOn_assemble h hne]
  simp [Function.comp_def]

theorem split_assemble (h : ∀ s ∈ ps, '/' ∉ s.toList) (hne : ps ≠ []) :
    (assemble .root ps).split = (.root, ps) := by
  simp only [split, pieces_assemble h hne, if_pos (isAbsolute_assemble ps)]

theorem exists_assemble_append (ps qs : List String) :
    ∃ t, (assemble .root (ps ++ qs)).text = (assemble .root ps).text ++ t := by
  by_cases hp : ps = []
  · subst hp
    exact ⟨"/".intercalate qs, by simp [assemble]⟩
  by_cases hq : qs = []
  · subst hq
    exact ⟨"", by simp⟩
  · refine ⟨"/" ++ "/".intercalate qs, ?_⟩
    simp [assemble, String.intercalate_append_of_ne_nil hp hq, String.append_assoc]

end Path

namespace FileSystem

variable {names : List String} {name : String}

abbrev AllOrdinary (names : List String) : Prop :=
  ∀ s ∈ names, IsOrdinary s

theorem AllOrdinary.nil : AllOrdinary [] :=
  List.forall_mem_nil _

theorem AllOrdinary.cons (h : AllOrdinary names) (hn : IsOrdinary name) :
    AllOrdinary (name :: names) :=
  List.forall_mem_cons.mpr ⟨hn, h⟩

theorem AllOrdinary.tail (h : AllOrdinary (name :: names)) : AllOrdinary names :=
  fun s hs => h s (List.mem_cons_of_mem _ hs)

theorem AllOrdinary.head (h : AllOrdinary (name :: names)) : IsOrdinary name :=
  h name List.mem_cons_self

theorem AllOrdinary.append {more : List String} (h : AllOrdinary names) (h' : AllOrdinary more) :
    AllOrdinary (names ++ more) := by
  intro s hs
  rcases List.mem_append.mp hs with hs | hs
  · exact h s hs
  · exact h' s hs

theorem AllOrdinary.suffix {q : List String} (h : AllOrdinary names) (hq : q <:+ names) :
    AllOrdinary q :=
  fun s hs => h s (hq.subset hs)

theorem AllOrdinary.initial {q : List String} (h : AllOrdinary names) (hq : q <+: names) :
    AllOrdinary q :=
  fun s hs => h s (hq.subset hs)

theorem AllOrdinary.front (h : AllOrdinary (names ++ [name])) : AllOrdinary names :=
  h.initial (List.prefix_append _ _)

theorem AllOrdinary.last (h : AllOrdinary (names ++ [name])) : IsOrdinary name :=
  h name List.mem_concat_self

theorem AllOrdinary.reverse (h : AllOrdinary names) : AllOrdinary names.reverse :=
  fun s hs => h s (List.mem_reverse.mp hs)

theorem pathTo_nil : pathTo [] = ⟨"/"⟩ := by
  simp [pathTo]

theorem toList_pathTo (names : List String) :
    (pathTo names).text.toList = '/' :: ['/'].intercalate (names.reverse.map String.toList) :=
  Path.toList_assemble names.reverse

theorem isAbsolute_pathTo (names : List String) : (pathTo names).IsAbsolute :=
  Path.isAbsolute_assemble names.reverse

theorem startOf_pathTo (names : List String) (loc : Location) :
    startOf (pathTo names).text loc = [] := by
  simp [startOf, toList_pathTo]

theorem splitOn_pathTo (h : AllOrdinary names) (hne : names ≠ []) :
    (pathTo names).text.toList.splitOn '/' = [] :: names.reverse.map String.toList :=
  Path.splitOn_assemble (fun s hs => (h.reverse s hs).no_slash) (by simpa using hne)

theorem split_pathTo (h : AllOrdinary names) :
    (pathTo names).split = (.root, if names = [] then [""] else names.reverse) := by
  by_cases hne : names = []
  · subst hne
    rw [pathTo_nil]
    decide
  · rw [if_neg hne]
    exact Path.split_assemble (fun s hs => (h.reverse s hs).no_slash) (by simpa using hne)

theorem filterMap_ofPiece? (h : AllOrdinary names) :
    names.filterMap Component.ofPiece? = names.map .name := by
  induction names with
  | nil => rfl
  | cons s names ih => simp [h.head.ofPiece?, ih h.tail]

theorem components_pathTo (h : AllOrdinary names) :
    (pathTo names).components = .root :: names.reverse.map .name := by
  rw [Path.components, split_pathTo h]
  by_cases hne : names = []
  · subst hne
    rfl
  · simp [hne, Path.Start.components, filterMap_ofPiece? h.reverse]

theorem fileName?_pathTo (h : AllOrdinary (name :: names)) :
    (pathTo (name :: names)).fileName? = some name := by
  rw [Path.fileName?, components_pathTo h, List.reverse_cons, List.map_append, List.map_singleton,
    ← List.cons_append, List.getLast?_concat]

theorem text_pathTo_singleton (name : String) : (pathTo [name]).text = "/" ++ name := by
  simp [pathTo]

theorem text_pathTo_cons (hne : names ≠ []) (name : String) :
    (pathTo (name :: names)).text = (pathTo names).text ++ "/" ++ name := by
  have hr : names.reverse ≠ [] := by simpa using hne
  simp [pathTo, String.intercalate_append_of_ne_nil hr, String.append_assoc]

theorem mem_pathTo_cons {c : Char} :
    c ∈ (pathTo (name :: names)).text.toList ↔
      c ∈ (pathTo names).text.toList ∨ c ∈ name.toList := by
  by_cases hne : names = []
  · subst hne
    simp [text_pathTo_singleton, pathTo_nil]
  · have : '/' ∈ (pathTo names).text.toList := by simp [toList_pathTo]
    simp only [text_pathTo_cons hne, String.toList_append, List.mem_append]
    constructor
    · rintro ((h | h) | h)
      · exact .inl h
      · cases List.mem_singleton.mp h
        exact .inl this
      · exact .inr h
    · rintro (h | h)
      · exact .inl (.inl h)
      · exact .inr h

theorem getLast?_pathTo (h : AllOrdinary (name :: names)) :
    (pathTo (name :: names)).text.toList.getLast? ≠ some '/' := by
  have hn := h.head
  have hl : (pathTo (name :: names)).text.toList.getLast? = name.toList.getLast? := by
    have hs := List.getLast?_isSome.mpr hn.toList_ne_nil
    by_cases hne : names = []
    · subst hne
      rw [text_pathTo_singleton, String.toList_append, List.getLast?_append, Option.or_of_isSome hs]
    · rw [text_pathTo_cons hne, String.toList_append, List.getLast?_append, Option.or_of_isSome hs]
  rw [hl]
  exact fun he => hn.no_slash (List.mem_of_getLast? he)

theorem join_pathTo (h : AllOrdinary names) (hn : IsOrdinary name) :
    (pathTo names).join ⟨name⟩ = pathTo (name :: names) := by
  cases names with
  | nil => simp [Path.join, hn.not_isAbsolute, pathTo_nil, Path.ext_iff, text_pathTo_singleton]
  | cons s names =>
    have hs : (pathTo (s :: names)).text ≠ "" := fun he => by
      have := toList_pathTo (s :: names)
      simp [he] at this
    rw [Path.join, if_neg hn.not_isAbsolute, if_neg (not_or_intro hs (getLast?_pathTo h)),
      Path.ext_iff, text_pathTo_cons (List.cons_ne_nil s names) name]

theorem foldl_join_pathTo {more : List String} (h : AllOrdinary names) (hm : AllOrdinary more) :
    more.foldl (fun p s => p.join ⟨s⟩) (pathTo names) = pathTo (more.reverse ++ names) := by
  induction more generalizing names with
  | nil => rfl
  | cons s more ih =>
    rw [List.foldl_cons, join_pathTo h hm.head, ih (h.cons hm.head) hm.tail]
    simp

theorem prefixesOf_root (h : AllOrdinary names) :
    Path.prefixesOf .root names = names.tails.map pathTo := by
  induction names with
  | nil => simp [Path.prefixesOf, pathTo_nil]
  | cons s names ih =>
    simp [Path.prefixesOf, h.head.not_isVoid, ih h.tail, Path.assemble, pathTo]

theorem parents_pathTo (h : AllOrdinary names) :
    pathTo names :: (pathTo names).parents = names.tails.map pathTo := by
  rw [Path.parents, split_pathTo h]
  cases names with
  | nil => simp [Path.prefixesOf, Path.IsVoid, pathTo_nil]
  | cons s names => simp [prefixesOf_root h]

theorem parents_pathTo_cons (h : AllOrdinary (name :: names)) :
    (pathTo (name :: names)).parents = pathTo names :: (pathTo names).parents := by
  have hp := parents_pathTo h
  rw [List.tails_cons, List.map_cons, ← parents_pathTo h.tail] at hp
  exact (List.cons.inj hp).2

theorem pathTo_injective {names' : List String} (h : AllOrdinary names) (h' : AllOrdinary names')
    (he : pathTo names = pathTo names') : names = names' := by
  have hc := congrArg Path.components he
  rw [components_pathTo h, components_pathTo h', List.cons.injEq] at hc
  have hi : Function.Injective Component.name := fun _ _ h => Component.name.inj h
  exact List.reverse_injective (List.map_injective_iff.mpr hi hc.2)

theorem mem_parents_pathTo {q : List String} (h : AllOrdinary names) (hq : q <:+ names) :
    pathTo q ∈ pathTo names :: (pathTo names).parents := by
  rw [parents_pathTo h]
  exact List.mem_map_of_mem ((List.mem_tails q names).mpr hq)

theorem mem_parents_pathTo_of_ne {q : List String} (h : AllOrdinary names) (hq : q <:+ names)
    (hne : q ≠ names) : pathTo q ∈ (pathTo names).parents := by
  have hm := mem_parents_pathTo h hq
  have hn : pathTo q ≠ pathTo names := fun he => hne (pathTo_injective (h.suffix hq) h he)
  simpa [hn] using hm

theorem parent?_pathTo (h : AllOrdinary (name :: names)) :
    (pathTo (name :: names)).parent? = some (pathTo names) := by
  rw [Path.parent?, parents_pathTo_cons h, List.head?_cons]

theorem lookupPieces_pathTo (h : AllOrdinary names) :
    lookupPieces (pathTo names).text = names.reverse := by
  cases names with
  | nil =>
    rw [pathTo_nil]
    decide
  | cons s names =>
    have hf : ((s :: names).reverse.map String.toList).map String.ofList =
        (s :: names).reverse := by
      simp [Function.comp_def]
    have he : (s :: names).reverse.filter (· ≠ "") = (s :: names).reverse :=
      List.filter_eq_self.mpr fun t ht => by simpa using (h.reverse t ht).ne_empty
    simp only [lookupPieces, splitOn_pathTo h (List.cons_ne_nil s names), List.map_cons, hf,
      getLast?_pathTo h]
    simpa using he

end FileSystem
end TarGuard
