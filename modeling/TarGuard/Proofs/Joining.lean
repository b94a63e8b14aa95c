import TarGuard.Proofs.Below
import TarGuard.Proofs.Leads

namespace TarGuard

open FileSystem

theorem IsPiece.getLast?_toList {s : String} (h : IsPiece s) (t : String) :
    (t ++ s).toList.getLast? ≠ some '/' := by
  have hs : s.toList.getLast?.isSome := List.getLast?_isSome.mpr (by simpa using h.ne_empty)
  rw [String.toList_append, List.getLast?_append, Option.or_of_isSome hs]
  exact fun he => h.no_slash (List.mem_of_getLast? he)

namespace Path

variable {p : Path} {s : String} {names : List String}

def words (p : Path) : List String :=
  p.pieces.filter (· ≠ "")

theorem words_append (t u : String) : words ⟨t ++ "/" ++ u⟩ = words ⟨t⟩ ++ words ⟨u⟩ := by
  rw [words, pieces_append, List.filter_append]
  rfl

theorem words_piece (h : IsPiece s) : words ⟨s⟩ = [s] := by
  rw [words, pieces_piece h]
  simp [h.ne_empty]

theorem words_join (h : IsPiece s) : (p.join ⟨s⟩).words = p.words ++ [s] := by
  rcases p.join_cases h with ⟨he, hj⟩ | ⟨t, ht, hj⟩ | ⟨_, hj⟩
  · have hp : p.words = [] := by
      rw [words, pieces, he]
      rfl
    rw [hj, hp, words_piece h, List.nil_append]
  · have hp : p.words = words ⟨t⟩ := by
      have ha := words_append t ""
      rw [String.append_empty, ← ht] at ha
      have hnil : words ⟨""⟩ = [] := rfl
      rw [show p = ⟨p.text⟩ from rfl, ha, hnil, List.append_nil]
    rw [hj, words_append, words_piece h, hp]
  · rw [hj, words_append, words_piece h]

theorem words_foldl_join (h : ∀ s ∈ names, IsPiece s) :
    (names.foldl (fun q s => q.join ⟨s⟩) p).words = p.words ++ names := by
  induction names generalizing p with
  | nil => simp
  | cons s names ih =>
    have ⟨hs, hn⟩ := List.forall_mem_cons.mp h
    rw [List.foldl_cons, ih hn, words_join hs, List.append_assoc, List.singleton_append]

theorem text_join_ne_empty (h : IsPiece s) : (p.join ⟨s⟩).text ≠ "" := by
  intro he
  have hw := p.words_join h
  rw [show p.join ⟨s⟩ = ⟨""⟩ from Path.ext he] at hw
  exact absurd hw.symm (by simp [words, pieces])

theorem lookupPieces_join (h : IsPiece s) : lookupPieces (p.join ⟨s⟩).text = p.words ++ [s] := by
  have hl : (p.join ⟨s⟩).text.toList.getLast? ≠ some '/' := by
    rcases p.join_cases h with ⟨_, hj⟩ | ⟨t, _, hj⟩ | ⟨_, hj⟩
    · rw [hj]
      simpa using h.getLast?_toList ""
    · rw [hj]
      exact h.getLast?_toList _
    · rw [hj]
      exact h.getLast?_toList _
  have hw := p.words_join h
  rw [words, pieces] at hw
  rw [lookupPieces, hw]
  simp only [hl, and_false, if_false]

theorem startOf_join (h : IsPiece s) (hp : p.text ≠ "") (loc : Location) :
    startOf (p.join ⟨s⟩).text loc = startOf p.text loc := by
  have happend (t u : String) (ht : t ≠ "") : startOf (t ++ u) loc = startOf t loc := by
    have hne : t.toList ≠ [] := by simpa using ht
    rw [startOf, startOf, String.toList_append, List.head?_append_of_ne_nil _ hne]
  rcases p.join_cases h with ⟨he, _⟩ | ⟨t, ht, hj⟩ | ⟨_, hj⟩
  · exact absurd he hp
  · rw [hj, ← ht]
    exact happend _ _ hp
  · rw [hj, String.append_assoc]
    exact happend _ _ hp

theorem startOf_foldl_join (h : ∀ s ∈ names, IsPiece s) (hp : p.text ≠ "") (loc : Location) :
    startOf (names.foldl (fun q s => q.join ⟨s⟩) p).text loc = startOf p.text loc := by
  induction names generalizing p with
  | nil => rfl
  | cons s names ih =>
    have ⟨hs, hn⟩ := List.forall_mem_cons.mp h
    rw [List.foldl_cons, ih hn (text_join_ne_empty hs), startOf_join hs hp]

theorem lookupPieces_foldl_join (h : ∀ s ∈ names, IsPiece s) (hne : names ≠ []) :
    lookupPieces (names.foldl (fun q s => q.join ⟨s⟩) p).text = p.words ++ names := by
  obtain ⟨before, s, rfl⟩ : ∃ before s, names = before ++ [s] :=
    ⟨_, _, (List.dropLast_append_getLast hne).symm⟩
  have ⟨hb, hs⟩ := List.forall_mem_append.mp h
  rw [List.foldl_append, List.foldl_cons, List.foldl_nil,
    lookupPieces_join (List.forall_mem_singleton.mp hs), words_foldl_join hb, List.append_assoc]

end Path

namespace FileSystem

variable {fs : FileSystem} {purpose : Purpose} {p : Path} {loc base l : Location}
  {names : List String} {n : Nat}

theorem lookupPieces_eq_or (p : Path) :
    lookupPieces p.text = p.words ∨ lookupPieces p.text = p.words ++ [""] := by
  unfold lookupPieces
  simp only
  split
  · exact .inr rfl
  · exact .inl rfl

theorem Walks.of_slash (h : Walks fs .status n loc (names ++ [""]) l) :
    Walks fs .status n loc names l := by
  have hr := Purpose.status.not_refusesSlash rfl
  generalize hall : names ++ [""] = all at h
  induction h generalizing names with
  | done => simp at hall
  | skip hs hw ih =>
    rcases List.append_eq_cons_iff.mp hall with ⟨rfl, hrest⟩ | ⟨rest, rfl, hrest⟩
    · cases hrest
      exact hw
    · exact .skip hs (ih hrest.symm)
  | up hw ih =>
    rcases List.append_eq_cons_iff.mp hall with ⟨rfl, hrest⟩ | ⟨rest, rfl, hrest⟩
    · exact absurd (List.cons.inj hrest).1 (by decide)
    · exact .up (ih hrest.symm)
  | enter hd _ hw ih =>
    rcases List.append_eq_cons_iff.mp hall with ⟨rfl, hrest⟩ | ⟨rest, rfl, hrest⟩
    · cases hrest
      have ⟨_, hm⟩ := isDirectory_iff.mp hd
      exact absurd rfl (isFileName_of_node?_cons hm).1
    · exact .enter hd (hr _) (ih hrest.symm)
  | last he =>
    rcases List.append_eq_cons_iff.mp hall with ⟨rfl, hrest⟩ | ⟨rest, rfl, hrest⟩
    · cases hrest
      exact absurd rfl he
    · simp at hrest
  | follow t ht _ _ hw ih =>
    rcases List.append_eq_cons_iff.mp hall with ⟨rfl, hrest⟩ | ⟨rest, rfl, hrest⟩
    · cases hrest
      exact absurd rfl (isFileName_of_node?_cons ht).1
    · exact .follow t ht (hr _) (fun _ => rfl) (ih (by rw [hrest, List.append_assoc]))

theorem walks_words (h : fs.locate .status p = .ok loc) :
    Walks fs .status maxLinks (startOf p.text fs.current) p.words loc := by
  have ⟨_, hw⟩ := locate_eq_ok_iff.mp h
  rcases lookupPieces_eq_or p with hp | hp
  · rwa [hp] at hw
  · rw [hp] at hw
    exact hw.of_slash

theorem ne_empty_of_locate (h : fs.locate purpose p = .ok loc) : p.text ≠ "" := by
  have ⟨hc, _⟩ := locate_eq_ok_iff.mp h
  rintro he
  rw [he] at hc
  cases hc

theorem exists_locate_foldl_join (h : fs.locate .status p = .ok base) (hd : fs.IsDirectory base)
    (ho : AllOrdinary names) (hne : names ≠ [])
    (hc : checkText (names.foldl (fun q s => q.join ⟨s⟩) p).text = .ok ()) :
    ∃ m, ∀ purpose, fs.locate purpose (names.foldl (fun q s => q.join ⟨s⟩) p) =
      fs.walk purpose m base names := by
  have hp : ∀ s ∈ names, IsPiece s := fun s hs => (ho s hs).isPiece
  have hs : names ≠ [""] := fun he => (ho "" (by simp [he])).ne_empty rfl
  have ⟨m, hm⟩ := (walks_words h).exists_walk_append hd hne hs
  refine ⟨m, fun purpose => ?_⟩
  rw [locate, hc, Path.startOf_foldl_join hp (ne_empty_of_locate h),
    Path.lookupPieces_foldl_join hp hne]
  exact hm purpose

theorem walk_of_node? {node : Node} (ho : AllOrdinary names) (hc : purpose.creates = false)
    (hn : fs.node? (names.reverse ++ base) = some node)
    (hl : purpose.follows = true → ∀ t, node ≠ .link t) :
    fs.walk purpose n base names = .ok (names.reverse ++ base) := by
  have hr := purpose.not_refusesSlash hc
  induction names generalizing base with
  | nil => exact walk_nil
  | cons s rest ih =>
    rw [List.reverse_cons, List.append_assoc, List.singleton_append] at hn ⊢
    by_cases hd : fs.IsDirectory (s :: base)
    case pos => rw [walk_directory hd (hr rest), ih ho.tail hn]
    case neg =>
      have hrest : rest = [] := by
        by_contra hne
        refine hd (isDirectory_of_suffix hn (List.suffix_append _ _) fun he => hne ?_)
        exact List.reverse_eq_nil_iff.mp (List.self_eq_append_left.mp he)
      subst hrest
      have ⟨he, hh, hu, _, _, hlength⟩ := isFileName_of_node?_cons hn
      refine walk_last he hh hu hlength fun hf t ht => ?_
      exact hl hf t (Option.some.inj (hn.symm.trans ht))

-- No name but the last one is that of a link.
def AvoidsLinks (fs : FileSystem) (base : Location) (names : List String) : Prop :=
  ∀ q t, q <:+ names.reverse → q ≠ names.reverse → fs.node? (q ++ base) ≠ some (.link t)

-- Without links in between, a walk gets to where its names are.
theorem Walks.eq_of_avoidsLinks (h : Walks fs .linkStatus n base names l) (ho : AllOrdinary names)
    (hn : fs.AvoidsLinks base names) : l = names.reverse ++ base := by
  induction h with
  | done => rfl
  | skip hs => exact absurd hs (not_or_intro ho.head.ne_empty ho.head.ne_here)
  | up => exact absurd rfl ho.head.ne_up
  | enter _ _ _ ih =>
    rw [List.reverse_cons, List.append_assoc, List.singleton_append]
    refine ih ho.tail fun q t hq hne => ?_
    rw [List.append_cons]
    refine hn (q ++ [_]) t ?_ fun he => ?_
    · rw [List.reverse_cons]
      exact List.suffix_append_self_iff.mpr hq
    · rw [List.reverse_cons] at he
      exact hne (List.append_cancel_right he)
  | last => rfl
  | follow t ht _ hf =>
    refine absurd ht (hn [_] t ?_ fun he => ?_)
    · rw [List.reverse_cons]
      exact List.suffix_append _ _
    · rw [List.reverse_cons] at he
      exact nomatch hf (List.reverse_eq_nil_iff.mp (List.self_eq_append_left.mp he))

end FileSystem

namespace Path

variable {p q : Path} {s : String} {names root : List String}

theorem pieces_of_split {rest : List String} (h : p.split = (.root, rest)) :
    p.pieces = "" :: rest := by
  unfold split at h
  split at h
  · split at h
    · cases h
      assumption
    · cases h
  · cases h
  · cases h

theorem components_eq_words (h : p.IsAbsolute) :
    p.components = .root :: p.words.filterMap Component.ofPiece? := by
  have ⟨rest, hs, _⟩ := split_of_isAbsolute h
  have hfilter : (rest.filter (· ≠ "")).filterMap Component.ofPiece? =
      rest.filterMap Component.ofPiece? := by
    rw [List.filterMap_filter]
    refine List.filterMap_congr fun s _ => ?_
    by_cases he : s = ""
    · rw [he]
      rfl
    · rw [if_pos (by simpa using he)]
  rw [components, hs, words, pieces_of_split hs, List.filter_cons_of_neg (by decide), hfilter]
  rfl

theorem normalize_foldl_join (hr : AllOrdinary root) (hp : p.normalize = pathTo root)
    (ho : AllOrdinary names) :
    (names.foldl (fun q s => q.join ⟨s⟩) p).normalize = pathTo (names.reverse ++ root) := by
  rw [normalize_joined ho, hp, foldl_join_pathTo hr ho]

theorem isMove_of_mem_plainComponents (h : ¬ p.IsAbsolute) :
    ∀ c ∈ p.plainComponents, IsMove c := by
  obtain ⟨cs, hc, hm⟩ := p.exists_moves
  rw [isAbsolute_iff_start] at h
  unfold plainComponents
  rw [hc]
  cases hs : p.split.1 with
  | root => exact absurd hs h
  | here => exact hm
  | none =>
    simp only [Start.components, List.nil_append]
    split
    · exact fun c hc => hm c (List.mem_cons_of_mem _ hc)
    · exact hm

theorem exists_names_of_no_up {cs : List Component} (h : ∀ c ∈ cs, IsMove c) (hup : .up ∉ cs) :
    ∃ names, AllOrdinary names ∧ cs = names.map .name := by
  induction cs with
  | nil => exact ⟨[], .nil, rfl⟩
  | cons c cs ih =>
    have ⟨hc, hcs⟩ := List.forall_mem_cons.mp h
    have ⟨hne, hup⟩ := not_or.mp (mt List.mem_cons.mpr hup)
    obtain ⟨names, ho, rfl⟩ := ih hcs hup
    rcases hc with rfl | ⟨s, hs, rfl⟩
    · exact absurd rfl hne
    · exact ⟨s :: names, ho.cons hs, rfl⟩

theorem join_empty_join (hp : p.text ≠ "") (hs : IsPiece s) :
    (p.join empty).join ⟨s⟩ = p.join ⟨s⟩ := by
  have hempty : ¬ empty.IsAbsolute := by decide
  by_cases hl : p.text.toList.getLast? = some '/'
  case pos =>
    have hj : p.join empty = p := by
      rw [join, if_neg hempty, if_pos (.inr hl), empty, String.append_empty]
    rw [hj]
  case neg =>
    have hj : p.join empty = ⟨p.text ++ "/"⟩ := by
      rw [join, if_neg hempty, if_neg (not_or_intro hp hl), empty, String.append_empty]
    have hlast : (p.text ++ "/").toList.getLast? = some '/' := by simp
    rw [hj, join, if_neg hs.not_isAbsolute, if_pos (.inr hlast), join, if_neg hs.not_isAbsolute,
      if_neg (not_or_intro hp hl)]

-- Without `..` an absolute path is spelled out, apart from a slash at its end. Two slashes at the
-- start are not taken for one.
theorem eq_pathTo_of_absoluteIn {current : Location} (hc : AllOrdinary current)
    (h : p.absoluteIn (pathTo current) = some q) (hup : .up ∉ p.components)
    (hslash : ['/', '/'] <+: p.text.toList → ['/', '/', '/'] <+: p.text.toList) :
    ∃ names, AllOrdinary names ∧ (q = pathTo names ∨ q = (pathTo names).join empty) := by
  -- In both cases names are joined to a path that is spelled out: to the root or to `current`.
  have hfold {start : Location} {names : List String} (hs : AllOrdinary start)
      (ho : AllOrdinary names) :
      (names.map Component.name).foldl (fun q c => q.join ⟨c.text⟩) (pathTo start) =
        pathTo (names.reverse ++ start) := by
    rw [List.foldl_map]
    exact foldl_join_pathTo hs ho
  have hend {names : List String} (ho : AllOrdinary names) :
      ∃ names', AllOrdinary names' ∧
        ((if p.text.toList.getLast? = some '/' then (pathTo names).join empty else pathTo names) =
            pathTo names' ∨
          (if p.text.toList.getLast? = some '/' then (pathTo names).join empty else pathTo names) =
            (pathTo names').join empty) := by
    refine ⟨names, ho, ?_⟩
    split
    · exact .inr rfl
    · exact .inl rfl
  unfold absoluteIn at h
  split at h
  case isTrue => cases h
  case isFalse =>
    rw [Option.some.injEq] at h
    subst h
    by_cases ha : p.IsAbsolute
    case pos =>
      obtain ⟨cs, hcs, hm⟩ := components_of_isAbsolute ha
      rw [hcs] at hup
      obtain ⟨names, ho, rfl⟩ := exists_names_of_no_up hm (mt (List.mem_cons_of_mem _) hup)
      have hroot : empty.join ⟨Component.root.text⟩ = pathTo [] := by
        rw [pathTo_nil]
        decide
      have htwo : ¬ (['/', '/'] <+: p.text.toList ∧ ¬ ['/', '/', '/'] <+: p.text.toList) :=
        fun hs => hs.2 (hslash hs.1)
      simp only [if_pos ha, if_neg htwo, hcs, List.foldl_cons, hroot, hfold AllOrdinary.nil ho]
      exact hend (ho.reverse.append .nil)
    case neg =>
      have hplain : .up ∉ p.plainComponents := by
        unfold plainComponents
        split
        · exact fun hm => hup (by simp [*])
        · exact hup
      obtain ⟨names, ho, hcs⟩ := exists_names_of_no_up (isMove_of_mem_plainComponents ha) hplain
      simp only [if_neg ha, hcs, hfold hc ho]
      exact hend (ho.reverse.append hc)

theorem absoluteIn_pathTo {name : String} (h : AllOrdinary (name :: names)) (current : Path) :
    (pathTo (name :: names)).absoluteIn current = some (pathTo (name :: names)) := by
  have hslash : ¬ ['/', '/'] <+: (pathTo (name :: names)).text.toList := by
    intro ⟨rest, hr⟩
    have hs := splitOn_pathTo h (List.cons_ne_nil name names)
    simp only [← hr, List.cons_append, List.nil_append, List.splitOn_cons_eq_if_modifyHead,
      beq_self_eq_true, if_true, List.cons.injEq, true_and] at hs
    have hm : [] ∈ (name :: names).reverse.map String.toList := hs ▸ List.mem_cons_self
    obtain ⟨s, hs, he⟩ := List.mem_map.mp hm
    exact (h.reverse s hs).toList_ne_nil he
  have hwhole : ofComponents (pathTo (name :: names)).components = pathTo (name :: names) := by
    rw [components_pathTo h, ofComponents_names h.reverse, List.reverse_reverse]
  simp only [absoluteIn, if_neg (text_pathTo_ne_empty _), if_pos (isAbsolute_pathTo _),
    if_neg (fun h => hslash (And.left h)), if_neg (getLast?_pathTo h)]
  exact congrArg some hwhole

theorem foldl_join_of_absoluteIn {current : Location} (hc : AllOrdinary current)
    (h : p.absoluteIn (pathTo current) = some q) (hup : .up ∉ p.components)
    (hslash : ['/', '/'] <+: p.text.toList → ['/', '/', '/'] <+: p.text.toList)
    (hr : AllOrdinary root) (hq : q.normalize = pathTo root) (ho : AllOrdinary names)
    (hne : names ≠ []) :
    names.foldl (fun q s => q.join ⟨s⟩) q = pathTo (names.reverse ++ root) := by
  have ha : q.IsAbsolute := isAbsolute_of_absoluteIn (isAbsolute_pathTo current) h
  have ⟨names', ho', hq'⟩ := eq_pathTo_of_absoluteIn hc h hup hslash
  have hfold : names.foldl (fun q s => q.join ⟨s⟩) q = pathTo (names.reverse ++ names') := by
    rcases hq' with rfl | rfl
    · exact foldl_join_pathTo ho' ho
    · have ⟨s, names, hcons⟩ := List.exists_cons_of_ne_nil hne
      rw [← foldl_join_pathTo ho' ho, hcons, List.foldl_cons, List.foldl_cons,
        join_empty_join (text_pathTo_ne_empty names') (ho s (by simp [hcons])).isPiece]
  -- Both are what the path becomes when it is normalized.
  have hn := normalize_foldl_join hr hq ho
  rw [hfold, normalize_pathTo (ho.reverse.append ho')] at hn
  rw [hfold, hn]

end Path

theorem Destination.root_pathTo {names : List String} {name : String}
    (h : AllOrdinary (name :: names)) (fs : FileSystem) :
    Destination.root fs (pathTo (name :: names)) = .ok (pathTo (name :: names)) := by
  rw [Destination.root, absolute, Path.absoluteIn_pathTo h]
  exact congrArg Except.ok (Path.normalize_pathTo h)

end TarGuard
