import TarGuard.Proofs.Joining

namespace TarGuard

open FileSystem

namespace Path

def joined (p : Path) (names : List String) : Path :=
  names.foldl (fun q s => q.join ⟨s⟩) p

variable {root : Path} {names : List String} {s : String}

theorem joined_nil (root : Path) : root.joined [] = root :=
  rfl

theorem joined_concat (root : Path) (names : List String) (s : String) :
    root.joined (names ++ [s]) = (root.joined names).join ⟨s⟩ := by
  rw [joined, joined, List.foldl_append, List.foldl_cons, List.foldl_nil]

theorem startsWith_joined (root : Path) (ho : AllOrdinary names) :
    (root.joined names).StartsWith root :=
  ⟨_, (components_joined ho).symm⟩

theorem not_alike_joined (root : Path) (ho : AllOrdinary (names ++ [s])) :
    ¬ (root.joined (names ++ [s])).Alike root := by
  intro he
  have hc : (root.joined (names ++ [s])).components = _ := components_joined ho
  rw [Alike, hc] at he
  simp at he

theorem text_join (root : Path) (hs : IsPiece s) :
    ∃ t, (root.join ⟨s⟩).text = root.text ++ t ∧ (t = s ∨ t = "/" ++ s) := by
  rcases join_cases (p := root) hs with ⟨he, hj⟩ | ⟨t, ht, hj⟩ | ⟨_, hj⟩
  · exact ⟨s, by rw [hj, he, String.empty_append], .inl rfl⟩
  · exact ⟨s, by rw [hj, ht], .inl rfl⟩
  · exact ⟨"/" ++ s, by rw [hj, String.append_assoc], .inr rfl⟩

theorem mem_text_joined_concat {c : Char} (ho : AllOrdinary (names ++ [s])) (hc : c ∈ s.toList) :
    c ∈ (root.joined (names ++ [s])).text.toList := by
  obtain ⟨t, ht, hcases⟩ := text_join (root.joined names) ho.last.isPiece
  rw [joined_concat, ht, String.toList_append]
  refine List.mem_append_right _ ?_
  rcases hcases with rfl | rfl
  · exact hc
  · simp [hc]

end Path

namespace FileSystem

variable {fs fs' : FileSystem} {purpose : Purpose} {root : Path} {base : Location}
  {names trail above : List String} {s : String}

theorem walk_directories {m : Nat} {more : List String} (hc : purpose.creates = false)
    (hd : fs.IsDirectory (names.reverse ++ base)) :
    fs.walk purpose m base (names ++ more) = fs.walk purpose m (names.reverse ++ base) more := by
  induction names generalizing base with
  | nil => rfl
  | cons t rest ih =>
    rw [List.reverse_cons, List.append_assoc, List.singleton_append] at hd ⊢
    have ht : fs.IsDirectory (t :: base) := hd.above (List.suffix_append _ _)
    rw [List.cons_append, walk_directory ht (purpose.not_refusesSlash hc _), ih hd]

theorem checkText_joined (hr : checkText root.text = .ok ()) (ho : AllOrdinary names)
    (hz : ∀ s ∈ names, '\x00' ∉ s.toList) :
    checkText (root.joined names).text = .ok () ↔
      (root.joined names).text.utf8ByteSize ≤ maxPathBytes := by
  refine ⟨utf8ByteSize_le_of_checkText, fun hsize => checkText_eq_ok_iff.mpr ?_⟩
  rw [← and_assoc]
  refine ⟨?_, hsize⟩
  clear hsize
  induction names using List.reverseRecOn with
  | nil =>
    obtain ⟨hn, hne, _⟩ := checkText_eq_ok_iff.mp hr
    exact ⟨hn, hne⟩
  | append_singleton names s ih =>
    have ⟨hzn, hzs⟩ := List.forall_mem_append.mp hz
    obtain ⟨hnul, hne⟩ := ih ho.front hzn
    obtain ⟨t, ht, hcases⟩ := Path.text_join (root.joined names) ho.last.isPiece
    have hzt : '\x00' ∉ t.toList := by
      have hz := hzs s (by simp)
      rcases hcases with rfl | rfl
      · exact hz
      · simpa using hz
    rw [Path.joined_concat, ht]
    exact ⟨by simp [hnul, hzt], by simp [hne]⟩

theorem checkText_of_joined_concat (hr : checkText root.text = .ok ())
    (ho : AllOrdinary (names ++ [s]))
    (hc : checkText (root.joined (names ++ [s])).text = .ok ()) :
    checkText (root.joined names).text = .ok () := by
  obtain ⟨t, ht, _⟩ := Path.text_join (root.joined names) ho.last.isPiece
  rw [Path.joined_concat, ht] at hc
  refine checkText_of_append hc ?_
  rcases List.eq_nil_or_concat names with rfl | ⟨front, u, rfl⟩
  · exact (checkText_eq_ok_iff.mp hr).2.1
  · rw [List.concat_eq_append] at ho ⊢
    rw [Path.joined_concat]
    exact Path.text_join_ne_empty ho.front.last.isPiece

theorem exists_checkText_error {t : String} (h : checkText t ≠ .ok ()) :
    ∃ e, checkText t = .error e ∧ e ≠ .alreadyExists ∧ e ≠ .tooManyLinks := by
  unfold checkText at h ⊢
  split
  · exact ⟨_, rfl, by decide, by decide⟩
  · split
    · exact ⟨_, rfl, by decide, by decide⟩
    · split
      · exact ⟨_, rfl, by decide, by decide⟩
      · simp_all

theorem locateNewDirectory_joined (ho : AllOrdinary (names ++ [s])) :
    fs.locateNewDirectory (root.joined (names ++ [s])) =
      fs.locate .linkStatus (root.joined (names ++ [s])) := by
  have hpiece : ∀ t ∈ names ++ [s], IsPiece t := fun t ht => (ho t ht).isPiece
  have hl : lookupPieces (root.joined (names ++ [s])).text = root.words ++ (names ++ [s]) :=
    Path.lookupPieces_foldl_join hpiece (by simp)
  have hf : (root.words ++ (names ++ [s])).filter (· ≠ "") = root.words ++ (names ++ [s]) := by
    refine List.filter_eq_self.mpr fun t ht => ?_
    rcases List.mem_append.mp ht with ht | ht
    · exact (List.mem_filter.mp ht).2
    · simpa using (ho t ht).ne_empty
  rw [locateNewDirectory, locate, hl, hf]

theorem reverse_append_suffix {q : List String} (hq : q <+: names) :
    q.reverse ++ base <:+ names.reverse ++ base :=
  List.suffix_append_self_iff.mpr (List.reverse_suffix.mpr hq)

theorem locate_of_grows_directory {new : Location → Node → Prop}
    (hb : fs.locate .status root = .ok base) (hd : fs.IsDirectory base) (g : Grows new fs fs') :
    fs'.locate .status root = .ok base := by
  refine locate_of_grows hb g fun t ht => ?_
  obtain ⟨_, hm⟩ := isDirectory_iff.mp (g.isDirectory hd)
  cases hm.symm.trans ht

theorem checkText_joined_mono {more : List String} (hr : checkText root.text = .ok ())
    (ho : AllOrdinary more) (hc : checkText (root.joined more).text = .ok ())
    (hp : names <+: more) : checkText (root.joined names).text = .ok () := by
  obtain ⟨rest, rfl⟩ := hp
  induction rest using List.reverseRecOn with
  | nil => rwa [List.append_nil] at hc
  | append_singleton rest s ih =>
    rw [← List.append_assoc] at ho hc
    exact ih ho.front (checkText_of_joined_concat hr ho hc)

section

variable (hb : fs.locate .status root = .ok base) (hd : fs.IsDirectory (names.reverse ++ base))

include hb hd

theorem locate_joined_concat (ho : AllOrdinary (names ++ [s]))
    (hc : checkText (root.joined (names ++ [s])).text = .ok ()) :
    fs.locate .linkStatus (root.joined (names ++ [s])) =
      if s.utf8ByteSize ≤ 255 then .ok (s :: (names.reverse ++ base)) else .error .nameTooLong := by
  have hs : IsOrdinary s := ho.last
  have hbase : fs.IsDirectory base := hd.above (List.suffix_append _ _)
  obtain ⟨m, hm⟩ := exists_locate_foldl_join hb hbase ho (by simp) hc
  have hl : fs.locate .linkStatus (root.joined (names ++ [s])) = _ := hm .linkStatus
  rw [hl, walk_directories rfl hd]
  split
  case isTrue hlength =>
    exact walk_last hs.ne_empty hs.ne_here hs.ne_up hlength fun hf => by cases hf
  case isFalse hlength => exact walk_of_long hs.ne_empty hs.ne_here hs.ne_up hlength

theorem locate_joined (ho : AllOrdinary names) (hc : checkText (root.joined names).text = .ok ()) :
    fs.locate .status (root.joined names) = .ok (names.reverse ++ base) := by
  by_cases hne : names = []
  case pos => rwa [hne]
  case neg =>
    have hbase : fs.IsDirectory base := hd.above (List.suffix_append _ _)
    obtain ⟨m, hm⟩ := exists_locate_foldl_join hb hbase ho hne hc
    have hwalk : fs.walk .status m base (names ++ []) = _ := walk_directories rfl hd
    rw [List.append_nil, walk_nil] at hwalk
    exact (hm .status).trans hwalk

end

theorem joined_pathTo (hr : AllOrdinary above) (ho : AllOrdinary trail) :
    (pathTo above).joined trail.reverse = pathTo (trail ++ above) := by
  rw [Path.joined, foldl_join_pathTo hr ho.reverse, List.reverse_reverse]

theorem Leads.append (h : fs.Leads above base) (ho : AllOrdinary trail)
    (hd : fs.IsDirectory (trail ++ base)) (hc : checkText (pathTo (trail ++ above)).text = .ok ()) :
    fs.Leads (trail ++ above) (trail ++ base) := by
  have hdir : fs.IsDirectory (trail.reverse.reverse ++ base) := by rwa [List.reverse_reverse]
  have hl := locate_joined h.locate hdir ho.reverse
  rw [joined_pathTo h.ordinary ho, List.reverse_reverse] at hl
  exact .of_locate (ho.append h.ordinary) (hl hc) hd

end FileSystem
end TarGuard
